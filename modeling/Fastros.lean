import Fastros.Mm.Gaps
import Fastros.Archive.Crc32
import Fastros.Seccomp.Severity
import Fastros.Fs.Mounts
import Fastros.Proc.Sigreturn
import Fastros.Fs.Append
import Fastros.Fs.Getdents
import Fastros.Fs.TmpfsPages
import Fastros.Proc.FutexWake
import Fastros.Fs.OverlayRename
import Fastros.Net.Bridge
import Fastros.Net.Bans
import Fastros.Sync.Mutex
import Fastros.Mm.Buddy
import Fastros.Mm.Containers
import Fastros.Fs.BcacheView
import Fastros.Alloc.SlabRuns
import Fastros.Archive.TarRoundTrip
import Fastros.Fastman.ContainerRecord
import Fastros.Fastman.Json
import Fastros.Shell.Pipeline
import Fastros.Shell.SedSubst
import Fastros.Shell.Heredoc
import Fastros.Shell.Redirs
import Fastros.Ssh.ServerAuth
import Fastros.Ssh.ChannelInput
import Fastros.Ssh.PacketRuns
import Fastros.Ssh.Sender
import Fastros.Fs.Ext2Kept
import Fastros.Users.Accounts
import Fastros.Proc.PidNs
import Fastros.Proc.Pids
import Fastros.Net.Epoll
import Fastros.Net.Unix
