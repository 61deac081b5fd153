import Mathlib.Data.List.Basic

/-!
# Mailboxes

`mailbox_t` of `core/src/inproc_socket.cpp`: a queue of bounded length. A mail that finds the queue
full is refused, which `set` reports to the sender, and is not kept anywhere.
-/

namespace Ailoy.Mailbox

variable {α : Type*}

/-- `mailbox_t::limit`. -/
def limit : ℕ := 128

/-- `setter_t::set`: the queue with the mail at its end, or `none` when it is refused. -/
def set (q : List α) (mail : α) : Option (List α) :=
  if q.length ≥ limit then none else some (q ++ [mail])

/-- `mailbox_t::get`: the first mail with the rest of the queue. -/
def get (q : List α) : Option (α × List α) :=
  match q with
  | [] => none
  | mail :: rest => some (mail, rest)

/-- A queue with room takes the mail at its end. -/
theorem set_of_lt {q : List α} {mail : α} (h : q.length < limit) :
    set q mail = some (q ++ [mail]) := by
  rw [set, if_neg (by omega)]

/-- A full queue refuses the mail. -/
theorem set_of_le {q : List α} {mail : α} (h : limit ≤ q.length) : set q mail = none := by
  rw [set, if_pos h]

end Ailoy.Mailbox
