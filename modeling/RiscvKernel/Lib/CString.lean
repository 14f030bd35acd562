import Mathlib.Data.List.TakeWhile
import RiscvKernel.Lib.Execution
import RiscvKernel.Lib.Memory

/-!
# Strings and arrays of characters in C

A string of C is read through a pointer up to the byte zero (`CharPtr.Holds`). An array of
characters has a size; what happens when it is indexed at its size or above, or read where nothing
has been stored, is undefined (`CharArray.store`, `CharArray.load`).

* `holds_lit`: the string of a literal.
* `CharArray.holds_ptr`: an array that holds a terminated string.
-/

open ByteMemory

/-- A character constant. -/
def chr (c : Char) : Byte := BitVec.ofNat 8 c.toNat

/-- The characters of a string literal, without its terminator. -/
def bytes (s : String) : List Byte := s.toList.map chr

/-! ### Pointers -/

/-- A pointer to characters: a memory and an address in it. -/
structure CharPtr where
  mem : Mem
  addr : ℕ

namespace CharPtr

variable {p : CharPtr} {cs ds : List Byte} {c : Byte} {k : ℕ}

/-- `*p`. -/
def deref (p : CharPtr) : Byte := p.mem p.addr

/-- `p + k`. -/
def add (p : CharPtr) (k : ℕ) : CharPtr := { p with addr := p.addr + k }

/-- `p + 1`. -/
def inc (p : CharPtr) : CharPtr := p.add 1

/-- The characters from `p` on are `cs` and the terminator. -/
def Holds (p : CharPtr) : List Byte → Prop
  | [] => p.deref = 0
  | c :: cs => p.deref = c ∧ c ≠ 0 ∧ p.inc.Holds cs

@[simp]
theorem holds_nil : p.Holds [] ↔ p.deref = 0 := Iff.rfl

@[simp]
theorem holds_cons : p.Holds (c :: cs) ↔ p.deref = c ∧ c ≠ 0 ∧ p.inc.Holds cs := Iff.rfl

theorem add_add {l : ℕ} : (p.add k).add l = p.add (k + l) := by
  simp only [add, Nat.add_assoc]

theorem inc_add : p.inc.add k = p.add (k + 1) := by
  simp only [inc, add, Nat.add_assoc, Nat.add_comm 1 k]

/-- The terminator is at the end of the string. -/
theorem Holds.deref_eq_zero (h : p.Holds cs) : p.deref = 0 ↔ cs = [] := by
  cases cs with
  | nil => exact iff_of_true h rfl
  | cons c cs => exact iff_of_false (h.1 ▸ h.2.1) (List.cons_ne_nil c cs)

/-- Behind a part of the string is the rest. -/
theorem Holds.append (h : p.Holds (cs ++ ds)) : (p.add cs.length).Holds ds := by
  induction cs generalizing p with
  | nil => exact h
  | cons c cs ih =>
    rw [List.length_cons, ← inc_add]
    exact ih h.2.2

/-- The characters at the addresses from `p` on. -/
theorem holds_of_getElem (hcs : ∀ i (hi : i < cs.length), p.mem (p.addr + i) = cs[i] ∧ cs[i] ≠ 0)
    (hend : p.mem (p.addr + cs.length) = 0) : p.Holds cs := by
  induction cs generalizing p with
  | nil => exact hend
  | cons c cs ih =>
    obtain ⟨hc, hne⟩ := hcs 0 (by simp)
    refine ⟨hc, hne, ih (fun i hi => ?_) ?_⟩
    · have haddr : p.inc.addr + i = p.addr + (i + 1) := by simp only [inc, add]; omega
      rw [haddr]
      exact hcs (i + 1) (by simpa using hi)
    · have haddr : p.inc.addr + cs.length = p.addr + (cs.length + 1) := by
        simp only [inc, add]; omega
      rw [haddr]
      exact hend

end CharPtr

/-- A string literal of a program. -/
def lit (s : String) : CharPtr := ⟨fun a => (bytes s).getD a 0, 0⟩

/-- A literal without the character zero is the string that it says. -/
theorem holds_lit {s : String} (h : (bytes s).all (· ≠ 0)) : (lit s).Holds (bytes s) := by
  refine CharPtr.holds_of_getElem (fun i hi => ?_) ?_
  · refine ⟨?_, of_decide_eq_true (List.all_eq_true.mp h _ (List.getElem_mem hi))⟩
    simp [lit, hi]
  · simp [lit]

/-! ### Visiting each character -/

/-- A turn of `while (*s) { f(*s++); }`, with the characters that `f` has got so far. -/
def eachTurn (s : CharPtr × List Byte) : Execution (Turn (CharPtr × List Byte) (List Byte)) :=
  if s.1.deref = 0 then pure (.leave s.2) else pure (.again (s.1.inc, s.2 ++ [s.1.deref]))

/-- `while (*s) { f(*s++); }`: the characters that `f` gets. -/
def each (s : CharPtr) : Execution (List Byte) := Execution.loop eachTurn (s, [])

/-- The function gets the characters of the string, in order. -/
theorem returns_each {p : CharPtr} {cs : List Byte} (h : p.Holds cs) : (each p).Returns cs := by
  suffices hloop : ∀ seen, (Execution.loop eachTurn (p, seen)).Returns (seen ++ cs) from hloop []
  intro seen
  induction cs generalizing p seen with
  | nil =>
    refine Execution.Returns.leave ?_
    rw [eachTurn, if_pos (CharPtr.holds_nil.mp h), List.append_nil]
    exact Execution.returns_pure.mpr rfl
  | cons c cs ih =>
    obtain ⟨hc, hne, hcs⟩ := h
    have hturn : (eachTurn (p, seen)).Returns (.again (p.inc, seen ++ [c])) := by
      rw [eachTurn, if_neg (by rwa [hc]), hc]
      exact Execution.returns_pure.mpr rfl
    refine hturn.again ?_
    rw [List.append_cons seen c cs]
    exact ih hcs _

/-! ### Arrays -/

/-- An array of `n` characters: what has been stored at each index. -/
structure CharArray (n : ℕ) where
  cell : ℕ → Option Byte

namespace CharArray

variable {n i : ℕ} {a : CharArray n} {cs : List Byte} {b : Byte}

/-- An array that nothing has been stored in. -/
def fresh (n : ℕ) : CharArray n := ⟨fun _ => none⟩

/-- The array with `b` at index `i`. -/
def set (a : CharArray n) (i : ℕ) (b : Byte) : CharArray n := ⟨Function.update a.cell i (some b)⟩

/-- `a[i] = b`. -/
def store (a : CharArray n) (i : ℕ) (b : Byte) : Execution (CharArray n) :=
  if i < n then pure (a.set i b) else Execution.undefined

/-- `a[i]`. -/
def load (a : CharArray n) (i : ℕ) : Execution Byte :=
  if i < n then (a.cell i).elim Execution.undefined pure else Execution.undefined

theorem set_cell : (a.set i b).cell i = some b := Function.update_self ..

theorem set_cell_of_ne {j : ℕ} (h : j ≠ i) : (a.set i b).cell j = a.cell j :=
  Function.update_of_ne h _ _

theorem returns_store (hi : i < n) : (a.store i b).Returns (a.set i b) := by
  rw [store, if_pos hi, Execution.returns_pure]

theorem returns_load (hi : i < n) (h : a.cell i = some b) : (a.load i).Returns b := by
  rw [load, if_pos hi, h]
  exact Execution.returns_pure.mpr rfl

/-- The array as a pointer to its first character. -/
def ptr (a : CharArray n) : CharPtr := ⟨fun i => (a.cell i).getD 0, 0⟩

/-- The characters at the indices below `k`. -/
def text (a : CharArray n) (k : ℕ) : List (Option Byte) := (List.range k).map a.cell

@[simp]
theorem length_text {k : ℕ} : (a.text k).length = k := by
  rw [text, List.length_map, List.length_range]

theorem text_succ {k : ℕ} : a.text (k + 1) = a.text k ++ [a.cell k] := by
  rw [text, List.range_succ, List.map_append, List.map_singleton, text]

/-- The text without its last character, and that character. -/
theorem text_concat : a.text (cs ++ [b]).length = (cs ++ [b]).map some ↔
    a.text cs.length = cs.map some ∧ a.cell cs.length = some b := by
  rw [List.length_append, List.length_singleton, text_succ, List.map_append, List.map_singleton]
  constructor
  · intro h
    obtain ⟨htext, hlast⟩ := List.append_inj' h rfl
    exact ⟨htext, List.singleton_inj.mp hlast⟩
  · rintro ⟨htext, hlast⟩
    rw [htext, hlast]

theorem holds_ptr (hcs : a.text cs.length = cs.map some) (hne : ∀ c ∈ cs, c ≠ 0)
    (hend : a.cell cs.length = some 0) : a.ptr.Holds cs := by
  refine CharPtr.holds_of_getElem (fun i hi => ⟨?_, hne _ (List.getElem_mem hi)⟩) ?_
  · have hcell := congrArg (fun l => l[i]?) hcs
    simp only [text, List.getElem?_map, List.getElem?_range hi, List.getElem?_eq_getElem hi,
      Option.map_some] at hcell
    simp [ptr, Option.some.inj hcell]
  · simp [ptr, hend]

/-- A store at the end of the text leaves it alone. -/
theorem text_set_of_le {k : ℕ} (hk : k ≤ i) : (a.set i b).text k = a.text k := by
  refine List.map_congr_left fun j hj => set_cell_of_ne ?_
  exact ((List.mem_range.mp hj).trans_le hk).ne

/-- Storing a character at the end of the text appends it. -/
theorem text_set : (a.set i b).text (i + 1) = a.text i ++ [some b] := by
  rw [text_succ, text_set_of_le le_rfl, set_cell]

theorem text_pred : a.text (i - 1) = (a.text i).dropLast := by
  cases i with
  | zero => rfl
  | succ i =>
    rw [text, text, List.range_succ, List.map_append, List.map_singleton, List.dropLast_concat]
    rfl

end CharArray
