import Mathlib.Data.List.Basic

namespace NiceEditor.WriteCalls

variable {α : Type*}

/-- What the system does with a request to write. -/
inductive WriteReply
  | complete
  | short (taken : Nat)
  | failed
deriving DecidableEq, Repr

/-- A call of `write` that has been made. -/
structure Write (α : Type*) where
  bytes : List α
  returned : Int
deriving DecidableEq, Repr

/-- The calls made so far, and the replies to those still to come. -/
structure Output (α : Type*) where
  writes : List (Write α)
  replies : Nat → WriteReply

/-- No byte is missing. -/
def Write.Complete (w : Write α) : Prop := w.bytes.length ≤ w.returned

/-- The file that the calls have made. -/
def Output.file (o : Output α) : List α :=
  o.writes.flatMap fun w => w.bytes.take w.returned.toNat

/-- What `write` returns: a short write takes less than it is given. -/
def returned (reply : WriteReply) (bytes : List α) : Int :=
  match reply with
  | .complete => bytes.length
  | .short taken => (min taken (bytes.length - 1) : Nat)
  | .failed => -1

/-- A call of `write`; does it take all the bytes? -/
def write (o : Output α) (bytes : List α) : Bool × Output α :=
  (decide ((bytes.length : Int) ≤ returned (o.replies 0) bytes),
    { writes := o.writes ++ [⟨bytes, returned (o.replies 0) bytes⟩]
      replies := fun n => o.replies (n + 1) })

/-- Every write still to come will be complete. -/
def Output.Willing (o : Output α) : Prop := ∀ n, o.replies n = .complete

/-- No write made so far has been short, or has failed. -/
def Output.Complete (o : Output α) : Prop := ∀ w ∈ o.writes, w.Complete

variable {o : Output α} {bytes : List α}

theorem write_complete (h : o.Complete) :
    (write o bytes).1 = true ↔ (write o bytes).2.Complete := by
  simp only [write, Output.Complete, List.mem_append, List.mem_singleton, decide_eq_true_eq]
  constructor
  · rintro hw w (hmem | rfl)
    · exact h w hmem
    · exact hw
  · exact fun hw => hw _ (.inr rfl)

theorem write_refused {granted : Prop} (hwilling : granted → o.Willing)
    (h : (write o bytes).1 = false) : ¬ (write o bytes).2.Complete ∧ ¬ granted := by
  constructor
  · intro hcomplete
    have hw := hcomplete ⟨bytes, returned (o.replies 0) bytes⟩ (by simp [write])
    simp only [write, decide_eq_false_iff_not] at h
    exact h hw
  · intro hgranted
    simp [write, returned, hwilling hgranted 0] at h

theorem write_file (h : (write o bytes).1 = true) :
    (write o bytes).2.file = o.file ++ bytes := by
  simp only [write, decide_eq_true_eq] at h
  simp only [write, Output.file, List.flatMap_append, List.flatMap_singleton]
  rw [List.take_of_length_le (by omega)]

theorem write_willing (h : o.Willing) (bytes : List α) :
    ∃ o', write o bytes = (true, o') ∧ o'.Willing ∧ o'.file = o.file ++ bytes := by
  have hwrite : (write o bytes).1 = true := by
    simp [write, returned, h 0]
  exact ⟨(write o bytes).2, Prod.ext hwrite rfl, fun n => h (n + 1), write_file hwrite⟩

end NiceEditor.WriteCalls
