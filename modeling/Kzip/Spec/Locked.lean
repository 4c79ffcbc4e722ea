import Kzip.Spec.Encrypted
import Kzip.Spec.Session

/-!
# Members behind a password

What is asked of a close that encrypts: whoever has the password finds the members that the edits leave, and
whoever has none is refused those that were to be encrypted.
-/

namespace Kzip.Spec

open Lib Lib.Utf8 Kzip.Impl

variable (X : Extern)

end Kzip.Spec
