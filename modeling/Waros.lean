import Waros.Kernel.Auth.UserFile
import Waros.Kernel.Fs.CurrentCommands
import Waros.Kernel.Memory.FrameRuns
import Waros.Kernel.Security.CapabilityRuns
import Waros.Kernel.Security.Firewall
import Waros.Kernel.Disk.Accounting
import Waros.Kernel.Disk.Images
import Waros.Kernel.Pkg.Removal
import Waros.Kernel.Pkg.Rollback
import Waros.Kernel.Exec.ExitRuns
import Waros.Kernel.Exec.FailedStart
import Waros.Kernel.Exec.QuantumRegisters
import Waros.Kernel.Net.Ipv4
import Waros.Kernel.Net.Serial
import Waros.Kernel.Net.Virtqueue
import Waros.Quantum.CircuitRuns
import Waros.Quantum.Qasm.Conditions
import Waros.Quantum.Fourier
import Waros.Quantum.PauliEstimate
import Waros.Kernel.Exec.HeapLayout
import Waros.Kernel.Exec.DirectoryReads
import Waros.Kernel.Security.FileEncryption
import Waros.Quantum.RandomWalk
import Waros.Quantum.IbmCounts
import Waros.Quantum.Shor
import Waros.Kernel.Hal.Hid
