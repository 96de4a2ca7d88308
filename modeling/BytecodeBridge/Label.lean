/-
Labels: the positions of the emitted code that other code may name
before its addresses are known.

Labels are ordered by the kind of position first and by their numbers
after that. The order is observable: frames are resolved and label
tables are listed in it.
-/
import Std.Data.TreeMap

namespace BytecodeBridge

/-- A position in the emitted code, resolved to a byte address at assembly. -/
inductive Label where
  /-- the first instruction made from a source offset -/
  | source (offset : Nat)
  /-- the handler entry of a region -/
  | handler (region : Nat)
  /-- the test of one clause of a region; one past the last clause rethrows -/
  | dispatch (region clause : Nat)
  /-- where a filter that declines its exception continues -/
  | filterReject (region clause : Nat)
  /-- the continuation after a finally clause for one recorded leave target -/
  | resume (region index : Nat)
  /-- a label inside the code of one operation -/
  | synthetic (number : Nat)
deriving DecidableEq, Repr, Inhabited

namespace Label

-- ==== order

/-- The place of the label's kind in the label order. -/
def rank : Label → Nat
  | source _ => 0
  | handler _ => 1
  | dispatch _ _ => 2
  | filterReject _ _ => 3
  | resume _ _ => 4
  | synthetic _ => 5

/-- The number that orders labels of one kind first. -/
def major : Label → Nat
  | source n | handler n | synthetic n => n
  | dispatch r _ | filterReject r _ | resume r _ => r

/-- The number that orders labels of one kind and one major number. -/
def minor : Label → Nat
  | source _ | handler _ | synthetic _ => 0
  | dispatch _ k | filterReject _ k | resume _ k => k

/-- Labels in the order of their kinds, then of their numbers. -/
def order : Label → Label → Ordering :=
  compareLex (compareOn rank) (compareLex (compareOn major) (compareOn minor))

instance : Ord Label := ⟨order⟩

instance : Std.TransCmp order :=
  inferInstanceAs
    (Std.TransCmp (compareLex (compareOn rank) (compareLex (compareOn major) (compareOn minor))))

instance : Std.TransOrd Label :=
  inferInstanceAs (Std.TransCmp order)

/-- The kind and the two numbers determine the label. -/
theorem eq_of_keys {a b : Label} (hr : a.rank = b.rank) (hj : a.major = b.major)
    (hn : a.minor = b.minor) : a = b := by
  cases a <;> cases b <;> simp_all [rank, major, minor]

instance : Std.LawfulEqCmp order where
  eq_of_compare {a b} h := by
    simp only [order, compareLex, compareOn, Ordering.then_eq_eq, Nat.compare_eq_eq] at h
    exact eq_of_keys h.1 h.2.1 h.2.2

instance : Std.LawfulEqOrd Label :=
  inferInstanceAs (Std.LawfulEqCmp order)

-- ==== text

/-- A number in lower-case hexadecimal, padded with zeros to four digits. -/
def hex4 (n : Nat) : String :=
  let digits := Nat.toDigits 16 n
  String.ofList (List.replicate (4 - digits.length) '0' ++ digits)

/-- The label as it is spelled in messages. -/
def text : Label → String
  | source o => "IL_" ++ hex4 o
  | handler r => s!"handler{r}"
  | dispatch r k => s!"handler{r}.clause{k}"
  | filterReject r k => s!"handler{r}.reject{k}"
  | resume r i => s!"handler{r}.resume{i}"
  | synthetic n => s!"L{n}"

end Label

/-- A finite map from labels, in label order. -/
abbrev LabelMap (α : Type) := Std.TreeMap Label α

end BytecodeBridge
