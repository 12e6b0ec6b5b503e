import CShellXv6.Proofs.Lexer
import CShellXv6.Proofs.Wiring
import CShellXv6.Proofs.Files
import CShellXv6.Proofs.GhostJobs
import CShellXv6.Proofs.Reports
import CShellXv6.Proofs.JobLimit
import CShellXv6.Proofs.Launch
import CShellXv6.Proofs.Runcomm
import CShellXv6.Proofs.Hop
import CShellXv6.Proofs.FindVisit
import CShellXv6.Proofs.Visits
import CShellXv6.Proofs.Starvation
import CShellXv6.Proofs.Scans
import CShellXv6.Proofs.Deadlock
import CShellXv6.Proofs.Statistics
import CShellXv6.Proofs.Numbering
import CShellXv6.Proofs.Locate
import CShellXv6.Proofs.Dispatch
import CShellXv6.Proofs.Wait
import CShellXv6.Proofs.Reveal
import CShellXv6.Proofs.Resumed
import CShellXv6.Proofs.Copying
import CShellXv6.Proofs.Ping
import CShellXv6.Proofs.Snoop
import CShellXv6.Proofs.Activities
import CShellXv6.Proofs.Capacity
import CShellXv6.Proofs.Pipe
