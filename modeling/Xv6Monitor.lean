import Xv6Monitor.Process.Kill
import Xv6Monitor.Process.Wakeup
import Xv6Monitor.Process.Reports
import Xv6Monitor.Scheduler.Arrival
import Xv6Monitor.Scheduler.RoundRobin
import Xv6Monitor.Scheduler.Preemption
import Xv6Monitor.Accounting.Charging
import Xv6Monitor.Accounting.Metrics
import Xv6Monitor.Disk.Reservation
import Xv6Monitor.Disk.Exhaustion
import Xv6Monitor.Disk.Driver
import Xv6Monitor.FileSystem.Directories
import Xv6Monitor.FileSystem.Resolution
import Xv6Monitor.FileSystem.Storage
import Xv6Monitor.Calls.Counts
import Xv6Monitor.Calls.Turnover
import Xv6Monitor.Calls.Atomicity
import Xv6Monitor.Calls.Chunks
import Xv6Monitor.Calls.Lengths
import Xv6Monitor.Streams.Editing
import Xv6Monitor.Streams.Faults
import Xv6Monitor.Shell.Lines
import Xv6Monitor.Util.Dates
import Xv6Monitor.Mkfs.Validity
import Xv6Monitor.Mkfs.Agreement
import Xv6Monitor.Calls.Listings
import Xv6Monitor.Scheduler.Locking
import Xv6Monitor.User.Backing
import Xv6Monitor.Util.Add
import Xv6Monitor.Util.Grep
import Xv6Monitor.Util.Printf
import Xv6Monitor.Util.Verdict
