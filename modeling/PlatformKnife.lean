import PlatformKnife.Sparse.Theorems.Termination
import PlatformKnife.Sparse.Theorems.TwoPass
import PlatformKnife.Sparse.Theorems.SizeBound
import PlatformKnife.Sparse.Theorems.RoundTrip
import PlatformKnife.Sparse.Theorems.Checksum
import PlatformKnife.Sparse.Theorems.RawImage
import PlatformKnife.Sparse.Theorems.Lengths
import PlatformKnife.Sparse.Theorems.Safety
import PlatformKnife.Ext4.Theorems.Policy
import PlatformKnife.Ext4.Theorems.Cursor
import PlatformKnife.Ext4.Theorems.Indirect
import PlatformKnife.Ext4.Theorems.Fixup
import PlatformKnife.Ext4.Theorems.Simg
import PlatformKnife.Ext4.Theorems.Image
import PlatformKnife.Ext4.Theorems.ResizeInode
import PlatformKnife.Ext4.Theorems.Directory
import PlatformKnife.Ext4.Theorems.Xattr
import PlatformKnife.Adb.Theorems.BipBuffer
import PlatformKnife.Adb.Theorems.FdSignal
import PlatformKnife.Adb.Sync.Theorems.PushReport
import PlatformKnife.Fastboot.Theorems.Download
import PlatformKnife.Mincrypt.Theorems.DsaSig
import PlatformKnife.Liblog.Theorems.ProcessLogBuffer
import PlatformKnife.Zipfile.Theorems.CentralDir
import PlatformKnife.Zipfile.Theorems.Lookup
import PlatformKnife.Cutils.Theorems.StrParms
import PlatformKnife.Cutils.Theorems.Utf
import PlatformKnife.Cutils.Theorems.MemStream
import PlatformKnife.Cutils.Theorems.RecordStream
import PlatformKnife.Cutils.Theorems.DirHash
import PlatformKnife.Liblog.Theorems.FormatLogLine
import PlatformKnife.Liblog.Theorems.TagMap
import PlatformKnife.Adb.Theorems.SmartSocket
import PlatformKnife.Adb.Theorems.ListTransports
import PlatformKnife.Adb.Theorems.EscapeArg
import PlatformKnife.Adb.Theorems.ListenerRuns
import PlatformKnife.Adb.Theorems.Auth
import PlatformKnife.Adb.Theorems.AuthHost
import PlatformKnife.Mincrypt.Theorems.Ecdsa
