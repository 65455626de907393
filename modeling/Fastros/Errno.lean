import Mathlib

/-!
# Error numbers

The codes that the modelled system calls and filesystem operations return.
-/

namespace Fastros

inductive Errno where
  | eperm | enoent | esrch | eio | ebadf | enomem | eacces | efault | ebusy | eexist | exdev
  | enotdir | eisdir | einval | efbig | enospc | espipe | erofs | enametoolong | enosys | enotempty
  | eloop | eagain | eintr | etimedout | eoverflow | echild | eaddrinuse | eisconn | econnrefused
  deriving DecidableEq, Repr

end Fastros
