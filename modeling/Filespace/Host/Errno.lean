import Filespace.Storage.Kind

/-!
# Numbered failures of the host

The host reports failures by number. A number has a fixed text and belongs to one kind; a number without a
text of its own is shown as unknown.
-/

namespace Filespace.Host

/-- The number of a host failure. -/
structure Errno where
  number : Int
  deriving DecidableEq

namespace Errno

def noEntry : Errno := ⟨2⟩
def occupied : Errno := ⟨17⟩
/-- A path leads through something that is not a directory. -/
def notDirectory : Errno := ⟨20⟩
/-- A file was asked for and a directory was found. -/
def isDirectory : Errno := ⟨21⟩
def invalid : Errno := ⟨22⟩
/-- A name has more than 255 bytes, or a path more than 4095. -/
def nameTooLong : Errno := ⟨36⟩
/-- A directory to be removed or replaced has entries. -/
def notEmpty : Errno := ⟨39⟩
/-- More than 40 links were followed. -/
def loop : Errno := ⟨40⟩
def busy : Errno := ⟨16⟩

/-- The failure whose number is the low half of a 64-bit word, which is negative from 2 ^ 31 on. -/
def ofWord (w : Nat) : Errno := ⟨(Int32.ofNat w).toInt⟩

/-- The texts of the numbers, from zero on. -/
def texts : List String :=
  ["Success", "Operation not permitted", "No such file or directory", "No such process",
   "Interrupted system call", "Input/output error", "No such device or address",
   "Argument list too long", "Exec format error", "Bad file descriptor", "No child processes",
   "Resource temporarily unavailable", "Cannot allocate memory", "Permission denied", "Bad address",
   "Block device required", "Device or resource busy", "File exists", "Invalid cross-device link",
   "No such device", "Not a directory", "Is a directory", "Invalid argument",
   "Too many open files in system", "Too many open files", "Inappropriate ioctl for device",
   "Text file busy", "File too large", "No space left on device", "Illegal seek",
   "Read-only file system", "Too many links", "Broken pipe", "Numerical argument out of domain",
   "Numerical result out of range", "Resource deadlock avoided", "File name too long",
   "No locks available", "Function not implemented", "Directory not empty",
   "Too many levels of symbolic links", "Unknown error 41", "No message of desired type",
   "Identifier removed", "Channel number out of range", "Level 2 not synchronized", "Level 3 halted",
   "Level 3 reset", "Link number out of range", "Protocol driver not attached",
   "No CSI structure available", "Level 2 halted", "Invalid exchange", "Invalid request descriptor",
   "Exchange full", "No anode", "Invalid request code", "Invalid slot", "Unknown error 58",
   "Bad font file format", "Device not a stream", "No data available", "Timer expired",
   "Out of streams resources", "Machine is not on the network", "Package not installed",
   "Object is remote", "Link has been severed", "Advertise error", "Srmount error",
   "Communication error on send", "Protocol error", "Multihop attempted", "RFS specific error",
   "Bad message", "Value too large for defined data type", "Name not unique on network",
   "File descriptor in bad state", "Remote address changed", "Can not access a needed shared library",
   "Accessing a corrupted shared library", ".lib section in a.out corrupted",
   "Attempting to link in too many shared libraries", "Cannot exec a shared library directly",
   "Invalid or incomplete multibyte or wide character", "Interrupted system call should be restarted",
   "Streams pipe error", "Too many users", "Socket operation on non-socket",
   "Destination address required", "Message too long", "Protocol wrong type for socket",
   "Protocol not available", "Protocol not supported", "Socket type not supported",
   "Operation not supported", "Protocol family not supported",
   "Address family not supported by protocol", "Address already in use",
   "Cannot assign requested address", "Network is down", "Network is unreachable",
   "Network dropped connection on reset", "Software caused connection abort", "Connection reset by peer",
   "No buffer space available", "Transport endpoint is already connected",
   "Transport endpoint is not connected", "Cannot send after transport endpoint shutdown",
   "Too many references: cannot splice", "Connection timed out", "Connection refused", "Host is down",
   "No route to host", "Operation already in progress", "Operation now in progress", "Stale file handle",
   "Structure needs cleaning", "Not a XENIX named type file", "No XENIX semaphores available",
   "Is a named type file", "Remote I/O error", "Disk quota exceeded", "No medium found",
   "Wrong medium type", "Operation canceled", "Required key not available", "Key has expired",
   "Key has been revoked", "Key was rejected by service", "Owner died", "State not recoverable",
   "Operation not possible due to RF-kill", "Memory page has hardware error"]

/-- The text of a failure, with its number. -/
def message (e : Errno) : String :=
  let text := if e.number < 0 then none else texts[e.number.toNat]?
  text.getD ("Unknown error " ++ toString e.number) ++ " (os error " ++ toString e.number ++ ")"

/-- The kind of a failure. Numbers that no kind claims are uncategorized. -/
def kind (e : Errno) : Storage.Kind :=
  match e.number with
  | 1 => .permissionDenied
  | 2 => .notFound
  | 4 => .interrupted
  | 7 => .argumentsTooLong
  | 11 => .wouldBlock
  | 12 => .outOfMemory
  | 13 => .permissionDenied
  | 16 => .resourceBusy
  | 17 => .alreadyExists
  | 18 => .crossesDevices
  | 20 => .notADirectory
  | 21 => .isADirectory
  | 22 => .invalidInput
  | 26 => .programBusy
  | 27 => .fileTooLarge
  | 28 => .storageFull
  | 29 => .notSeekable
  | 30 => .readOnly
  | 31 => .tooManyLinks
  | 32 => .brokenPipe
  | 35 => .deadlock
  | 36 => .invalidName
  | 38 => .unsupported
  | 39 => .directoryNotEmpty
  | 40 => .linkLoop
  | 95 => .unsupported
  | 98 => .addressInUse
  | 99 => .addressNotAvailable
  | 100 => .networkDown
  | 101 => .networkUnreachable
  | 103 => .connectionAborted
  | 104 => .connectionReset
  | 107 => .notConnected
  | 110 => .timedOut
  | 111 => .connectionRefused
  | 113 => .hostUnreachable
  | 115 => .inProgress
  | 116 => .staleHandle
  | 122 => .quotaExceeded
  | _ => .uncategorized

end Errno

end Filespace.Host
