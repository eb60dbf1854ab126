import Fcfs.Fmtr.Mounts
import Fcfs.Vol.Isolation
import Fcfs.Vol.Eof
import Fcfs.Vol.Growth
import Fcfs.Vol.Capacity
import Fcfs.Vol.Resolve
import Fcfs.Vol.Reported
import Fcfs.Vol.Coherence
import Fcfs.Vol.Transparent
import Fcfs.Vol.Leak
import Fcfs.Vol.Unseen
import Fcfs.Vol.Found
import Fcfs.Vol.DirLoop
import Fcfs.Vol.Erase
import Fcfs.Vol.Refusal
import Fcfs.Vol.Namespace
import Fcfs.Vol.Scan
import Fcfs.Vol.FirstFree
import Fcfs.Vol.Codes
import Fcfs.Vol.DelBlock
import Fcfs.Vol.Alike
import Fcfs.Vol.Lasting
import Fcfs.Vol.Account
import Fcfs.Passwd
import Fcfs.Vol.Alone
import Fcfs.Vol.CutOff
import Fcfs.Vol.Fitting
