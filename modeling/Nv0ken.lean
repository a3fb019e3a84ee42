import Nv0ken.Proofs.Browser.Chunked
import Nv0ken.Proofs.Drivers.Monitor
import Nv0ken.Proofs.Fs.Unpack
import Nv0ken.Proofs.Graphics.Composite
import Nv0ken.Proofs.Graphics.Created
import Nv0ken.Proofs.Graphics.Focus
import Nv0ken.Proofs.Graphics.HitTest
import Nv0ken.Proofs.Graphics.Layers
import Nv0ken.Proofs.Graphics.References
import Nv0ken.Proofs.Graphics.Restore
import Nv0ken.Proofs.Ipc.Pipe
import Nv0ken.Proofs.Libc.Environ
import Nv0ken.Proofs.Libnv0.ClientPoll
import Nv0ken.Proofs.Libnv0.Clipboard
import Nv0ken.Proofs.Main
import Nv0ken.Proofs.Mm.HeapRun
import Nv0ken.Proofs.Mm.Vmm
import Nv0ken.Proofs.Multiboot2
import Nv0ken.Proofs.Net.Arp
import Nv0ken.Proofs.Net.Checksums
import Nv0ken.Proofs.Net.Delivery
import Nv0ken.Proofs.Proc.Append
import Nv0ken.Proofs.Proc.Cwd
import Nv0ken.Proofs.Proc.Dup
import Nv0ken.Proofs.Proc.ElfLoader
import Nv0ken.Proofs.Proc.FailedCalls
import Nv0ken.Proofs.Proc.Reaping
import Nv0ken.Proofs.Proc.RoundRobin
import Nv0ken.Proofs.Proc.Scan
import Nv0ken.Proofs.Proc.Seek
import Nv0ken.Proofs.Shell.Connectives
import Nv0ken.Proofs.Shell.Descriptors
import Nv0ken.Proofs.Shell.Quoted
import Nv0ken.Proofs.Terminal.Region
import Nv0ken.Proofs.Terminal.Sequences
import Nv0ken.Proofs.TextEditor.Bounds
import Nv0ken.Proofs.TextEditor.Load
import Nv0ken.Proofs.TextEditor.Typing
import Nv0ken.Proofs.Widgets.TextEdits
import Nv0ken.Proofs.Widgets.Valid
