import NyaTerm.Sync.Application
import NyaTerm.Sync.Theorems.Alone
import NyaTerm.Cloud.Theorems.Resolution
import NyaTerm.Cloud.Theorems.Control
import NyaTerm.Cloud.MetadataCache
import NyaTerm.Otp.Theorems.Hotp
import NyaTerm.Editor.Theorems.Paste
import NyaTerm.Store.Theorems.Relationships
import NyaTerm.Sync.Theorems.Trust
import NyaTerm.Sync.Theorems.Identifiers
import NyaTerm.Trzsz.Theorems.Worker
import NyaTerm.Trzsz.Theorems.Seen
import NyaTerm.Trzsz.Theorems.Confinement
import NyaTerm.Trzsz.Theorems.Detector
import NyaTerm.Trzsz.Theorems.Stream
import NyaTerm.Trzsz.Theorems.Resume
import NyaTerm.Trzsz.Theorems.Pack
import NyaTerm.Trzsz.Theorems.Codec
import NyaTerm.Policy.Theorems.Execution
import NyaTerm.Shell.Theorems.Directory
import NyaTerm.Sftp.Theorems.Delete
import NyaTerm.Zmodem.Theorems.Files
import NyaTerm.Telnet.Theorems.Codec
import NyaTerm.Tmux.Theorems.Control
import NyaTerm.Tmux.Theorems.Handshake
import NyaTerm.Tmux.Theorems.Detect
import NyaTerm.Xymodem.Theorems.Sender
import NyaTerm.Zmodem.Theorems.Bypass
import NyaTerm.Shell.Theorems.Osc
import NyaTerm.Zmodem.Theorems.Transfer
import NyaTerm.Tmux.Theorems.Layout
import NyaTerm.Session.Theorems.EventOrder
import NyaTerm.Tmux.Theorems.Mailbox
import NyaTerm.Workspace.Theorems.TabLayout
