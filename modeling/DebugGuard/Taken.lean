/-!
# What a reader takes

The answer of a function that reads from the front of a list: a value and what is left, together
with a bound on how much was taken (`Read`).  Recursive readers rest on it: what is left behind a
reader that takes something is shorter (`Taken`), and a reader that may take nothing at least adds
nothing (`Passed`).
-/

namespace DebugGuard

/-- A value read from the front of `ts`, and what is left: at least `least` items fewer. -/
structure Read {τ : Type} (least : Nat) (ts : List τ) (α : Type) where
  /-- What was read. -/
  value : α
  /-- What is left. -/
  rest : List τ
  bound : rest.length + least ≤ ts.length

/-- A value read from the front of `ts`, and what is left, which is shorter. -/
abbrev Taken {τ : Type} (ts : List τ) (α : Type) := Read 1 ts α

/-- A value read from the front of `ts`, and what is left, which may be all of it. -/
abbrev Passed {τ : Type} (ts : List τ) (α : Type) := Read 0 ts α

theorem Read.shorter {τ α : Type} {ts : List τ} (a : Taken ts α) : a.rest.length < ts.length :=
  a.bound

/-- What is left after two readers is shorter. -/
theorem shorter_trans {τ : Type} {as bs cs : List τ} (h : bs.length < as.length)
    (h' : cs.length < bs.length) : cs.length < as.length :=
  Nat.lt_trans h' h

/-- What is left after a reader that takes something and one that may is shorter. -/
theorem shorter_trans_le {τ : Type} {as bs cs : List τ} (h : bs.length < as.length)
    (h' : cs.length ≤ bs.length) : cs.length < as.length :=
  Nat.lt_of_le_of_lt h' h

/-- What is left after three readers is shorter. -/
theorem shorter_trans₃ {τ : Type} {as bs cs ds : List τ} (h : bs.length < as.length)
    (h' : cs.length < bs.length) (h'' : ds.length < cs.length) : ds.length < as.length :=
  shorter_trans h (shorter_trans h' h'')

/-- What is left after two readers that take something and one that may is shorter. -/
theorem shorter_trans₃_le {τ : Type} {as bs cs ds : List τ} (h : bs.length < as.length)
    (h' : cs.length < bs.length) (h'' : ds.length ≤ cs.length) : ds.length < as.length :=
  shorter_trans_le (shorter_trans h h') h''

end DebugGuard
