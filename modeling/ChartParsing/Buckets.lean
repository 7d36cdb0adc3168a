/-
ChartParsing/Buckets.lean

Values filed under keys, in order of arrival.

Two parts of the library keep such files: a grammar looks its productions up
by the key of a symbol, and a chart looks its edges up by the values of some
of their attributes.  Both only ever add at the end of a bucket, and both are
read through one view, `get`:

    (b.push k a).get k' = b.get k' ++ [a]   if k = k', and b.get k' otherwise

(`get_push`).  A bucket that was never filled reads as the empty list.  Keys
are found by comparing, so they must be ordered.
-/
import Std.Data.TreeMap.Lemmas

namespace ChartParsing

/-- Lists of values under ordered keys. -/
structure Buckets (κ α : Type) [Ord κ] where
  /-- The buckets filled so far. -/
  filled : Std.TreeMap κ (Array α)

namespace Buckets

variable {κ α : Type} [Ord κ]

/-- No bucket filled. -/
def empty : Buckets κ α := ⟨∅⟩

/-- The bucket under `k`, for reading at a place. -/
def bucket (b : Buckets κ α) (k : κ) : Array α := (b.filled[k]?).getD #[]

/-- The values filed under `k`, in order of arrival. -/
def get (b : Buckets κ α) (k : κ) : List α := (b.bucket k).toList

/-- Adds `a` at the end of the bucket under `k`. -/
def push (b : Buckets κ α) (k : κ) (a : α) : Buckets κ α :=
  ⟨b.filled.alter k fun bucket => some ((bucket.getD #[]).push a)⟩

/-! ### Reading after filing -/

theorem getElem?_bucket (b : Buckets κ α) (k : κ) (i : Nat) : (b.bucket k)[i]? = (b.get k)[i]? := by
  simp [get]

@[simp] theorem get_empty [Std.TransOrd κ] (k : κ) : (empty : Buckets κ α).get k = [] := by
  simp [empty, get, bucket]

/-- Filing under one key leaves every other bucket as it was. -/
theorem get_push [Std.TransOrd κ] [Std.LawfulEqOrd κ] [DecidableEq κ]
    (b : Buckets κ α) (k k' : κ) (a : α) :
    (b.push k a).get k' = if k = k' then b.get k' ++ [a] else b.get k' := by
  by_cases h : k = k'
  · subst h
    simp [push, get, bucket]
  · simp [push, get, bucket, Std.TreeMap.getElem?_alter, h]

end Buckets

end ChartParsing
