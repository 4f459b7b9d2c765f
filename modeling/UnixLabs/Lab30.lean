import UnixLabs.Library.Pipeline
import UnixLabs.WriteFile

/-!
lab30: a client sends a file to a server, which prints it in upper case.

Here both loops go on at once, with the connection between them.
-/

namespace UnixLabs

open Library
open Lab25 (readError upper upperLoop upperLoop_faithful)

namespace Lab25

variable {pipeSize : ℕ}

theorem upperLoop_contained (hpos : 0 < pipeSize) (hsize : pipeSize < 2 ^ 63) :
    (upperLoop pipeSize).Contained :=
  (upperLoop_faithful hsize).contained hpos (show readError ≠ 0 by decide)
    (beq_self_eq_true readError)

end Lab25

namespace Lab30

/-- `write_file` of the client and `print_upper` of the server, whose buffer is as large.
The connection is a parameter. -/
def connection (takes : ℕ → ℕ → ℕ → Bool) : Pipeline CChar :=
  ⟨clientLoop, upperLoop clientPipeSize, takes⟩

theorem clientLoop_contained : clientLoop.Contained :=
  clientLoop_faithful.contained (show 0 < clientPipeSize by decide)
    (show readError ≠ 0 by decide) (beq_self_eq_true readError)

end Lab30

end UnixLabs
