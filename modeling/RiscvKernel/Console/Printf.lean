import Mathlib.Algebra.Group.Nat.Even
import Mathlib.Data.List.DropRight
import RiscvKernel.Console.PrintNum

/-!
# printf

The kernel's `printf` goes through its format in two places: the loop looks for the terminator at
each turn, and the switch behind a `%` takes the next character without looking. The state of a
run has the addresses of the format that have been read, so that reading beyond the terminator is
something that can be stated.

* `Item`, `items`: the pieces of a format.
* `Renders`, `Prints`: what a conversion makes of its argument, and what a format prints.
* `exists_scanned`: the run through a format, up to its end or to a `%` in last position.
* `printf_follows_iff`: `printf` follows its format to the end and not beyond exactly if the format
  ends in an even number of `%`.
-/

open ByteMemory Execution Numeral

/-! ### Definitions -/

/-- An argument of a variadic function. -/
inductive Arg
  | int (v : BitVec 32)
  | ulong (v : Word)
  | str (p : CharPtr)

/-- `va_arg(args, int)`. The next argument has to be one of this type. -/
def vaInt : List Arg → Execution (BitVec 32 × List Arg)
  | .int v :: args => pure (v, args)
  | _ => undefined

/-- `va_arg(args, unsigned long)`. -/
def vaUlong : List Arg → Execution (Word × List Arg)
  | .ulong v :: args => pure (v, args)
  | _ => undefined

/-- `va_arg(args, const char *)`. -/
def vaStr : List Arg → Execution (CharPtr × List Arg)
  | .str p :: args => pure (p, args)
  | _ => undefined

/-- `uart_puts`. -/
def uartPuts (str : CharPtr) : Execution (List Byte) := each str

/-- The state of `printf`: the rest of the format and of the arguments, what has been printed, and
the addresses at which the format has been read. -/
structure Printf where
  fmt : CharPtr
  args : List Arg
  out : List Byte
  reads : List ℕ

namespace Printf

/-- `*fmt`. -/
def read (s : Printf) : Byte × Printf := (s.fmt.deref, { s with reads := s.fmt.addr :: s.reads })

/-- `fmt++`. -/
def next (s : Printf) : Printf := { s with fmt := s.fmt.inc }

/-- What is printed next. -/
def put (s : Printf) (cs : List Byte) : Printf := { s with out := s.out ++ cs }

end Printf

/-- `switch (*fmt)`, with the value of `*fmt`. -/
def printfSwitch (c : Byte) (s : Printf) : Execution Printf :=
  if c = chr 'd' then do
    let (v, args) ← vaInt s.args
    let cs ← printNum (v.signExtend 64) 10 true
    pure ({ s with args }.put cs)
  else if c = chr 'x' then do
    let (v, args) ← vaUlong s.args
    let cs ← printNum v 16 false
    pure ({ s with args }.put cs)
  else if c = chr 's' then do
    let (p, args) ← vaStr s.args
    let cs ← uartPuts p
    pure ({ s with args }.put cs)
  else if c = chr 'c' then do
    let (v, args) ← vaInt s.args
    pure ({ s with args }.put [v.setWidth 8])
  else if c = chr '%' then pure (s.put [chr '%'])
  else
    let s := s.put [chr '%']
    let (c, s) := s.read
    pure (s.put [c])

/-- A turn of `while (*fmt)`. -/
def printfTurn (s : Printf) : Execution (Turn Printf Printf) :=
  let (c, s) := s.read
  if c = 0 then pure (.leave s)
  else
    let (c, s) := s.read
    if c = chr '%' then do
      let s := s.next
      let (c, s) := s.read
      let s ← printfSwitch c s
      pure (.again s.next)
    else
      let (c, s) := s.read
      pure (.again (s.put [c]).next)

/-- `printf`. -/
def printf (fmt : CharPtr) (args : List Arg) : Execution Printf :=
  loop printfTurn { fmt, args, out := [], reads := [] }

/-! ### What a format says -/

/-- A piece of a format: a literal character, or `%` and a character. -/
inductive Item
  | lit (c : Byte)
  | conv (c : Byte)

/-- The pieces of a format. A `%` in last position stands for itself. -/
def items : List Byte → List Item
  | [] => []
  | [c] => [.lit c]
  | c :: d :: cs => if c = chr '%' then .conv d :: items cs else .lit c :: items (d :: cs)

/-- The conversions that have an argument. -/
def conversions (is : List Item) : List Byte :=
  is.filterMap fun
    | .lit _ => none
    | .conv c => if c ∈ bytes "dxsc" then some c else none

/-- What a conversion makes of an argument of its type. -/
inductive Renders : Byte → Arg → List Byte → Prop
  | dec (v : BitVec 32) : Renders (chr 'd') (.int v) (numeral 10 v.toInt)
  | hex (v : Word) : Renders (chr 'x') (.ulong v) (numeral 16 v.toNat)
  | str (p : CharPtr) (cs : List Byte) : p.Holds cs → Renders (chr 's') (.str p) cs
  | char (v : BitVec 32) : Renders (chr 'c') (.int v) [v.setWidth 8]

/-- The argument has the type that the conversion asks for. -/
def Accepts (c : Byte) (a : Arg) : Prop := ∃ cs, Renders c a cs

/-- What the pieces of a format print, each conversion with its argument. -/
inductive Prints : List Item → List Arg → List Byte → Prop
  | nil : Prints [] [] []
  | lit {is args out} (c : Byte) : Prints is args out → Prints (.lit c :: is) args (c :: out)
  | percent {is args out} : Prints is args out →
      Prints (.conv (chr '%') :: is) args (chr '%' :: out)
  | arg {is args out} {c : Byte} {a : Arg} {cs : List Byte} : Renders c a cs →
      Prints is args out → Prints (.conv c :: is) (a :: args) (cs ++ out)
  | unknown {is args out} {c : Byte} : c ∉ bytes "dxsc%" → Prints is args out →
      Prints (.conv c :: is) args (chr '%' :: c :: out)

/-- `printf` follows the format `cs`: it prints what its pieces say, it takes the arguments `used`
and leaves the others, and it reads no byte behind the terminator. -/
def Follows (fmt : CharPtr) (cs : List Byte) (used rest : List Arg) : Prop :=
  ∃ s, (printf fmt (used ++ rest)).Returns s ∧ Prints (items cs) used s.out ∧ s.args = rest ∧
    ∀ a ∈ s.reads, a ≤ fmt.addr + cs.length

/-- The number of `%` at the end of a format. -/
def trailing (cs : List Byte) : ℕ := (cs.rtakeWhile (· = chr '%')).length

/-! ### The switch -/

variable {s s₁ s₂ r : Printf} {c : Byte} {cs out out₁ out₂ : List Byte} {is js : List Item}
variable {used used₁ used₂ rest : List Arg} {a n m : ℕ}

theorem Prints.append (h₁ : Prints is used₁ out₁) (h₂ : Prints js used₂ out₂) :
    Prints (is ++ js) (used₁ ++ used₂) (out₁ ++ out₂) := by
  induction h₁ with
  | nil => exact h₂
  | lit c _ ih => exact .lit c ih
  | percent _ ih => exact .percent ih
  | arg hr _ ih =>
    rw [List.append_assoc]
    exact .arg hr ih
  | unknown hc _ ih => exact .unknown hc ih

/-- What the switch does: it takes `used`, prints `out`, and reads the format, if at all, where it
stands. -/
structure Switched (s s₁ : Printf) (used : List Arg) (out : List Byte) : Prop where
  fmt : s₁.fmt = s.fmt
  args : s.args = used ++ s₁.args
  out : s₁.out = s.out ++ out
  reads : ∀ a ∈ s₁.reads, a ∈ s.reads ∨ a = s.fmt.addr

/-- The switch prints a conversion with its argument. -/
theorem switched_arg {arg : Arg} {args : List Arg} (h : Renders c arg cs)
    (hargs : s.args = arg :: args) :
    ∃ s₁, (printfSwitch c s).Returns s₁ ∧ Switched s s₁ [arg] cs := by
  refine ⟨Printf.put { s with args } cs, ?_, rfl, hargs, rfl, fun a ha => Or.inl ha⟩
  unfold printfSwitch
  rw [hargs]
  cases h with
  | dec v =>
    rw [if_pos rfl]
    exact Returns.bind (returns_pure.mpr rfl)
      ((printNum_int v).bind (returns_pure.mpr rfl))
  | hex v =>
    rw [if_neg (by decide), if_pos rfl]
    exact Returns.bind (returns_pure.mpr rfl)
      ((printNum_hex v).bind (returns_pure.mpr rfl))
  | str p cs hp =>
    rw [if_neg (by decide), if_neg (by decide), if_pos rfl]
    exact Returns.bind (returns_pure.mpr rfl)
      ((returns_each hp).bind (returns_pure.mpr rfl))
  | char v =>
    rw [if_neg (by decide), if_neg (by decide), if_neg (by decide), if_pos rfl]
    exact Returns.bind (returns_pure.mpr rfl) (returns_pure.mpr rfl)

theorem switched_percent : ∃ s₁, (printfSwitch (chr '%') s).Returns s₁ ∧
    Switched s s₁ [] [chr '%'] := by
  refine ⟨s.put [chr '%'], ?_, rfl, rfl, rfl, fun a ha => Or.inl ha⟩
  unfold printfSwitch
  rw [if_neg (by decide), if_neg (by decide), if_neg (by decide), if_neg (by decide), if_pos rfl]
  exact returns_pure.mpr rfl

/-- The switch prints the two characters of an unknown conversion. -/
theorem switched_unknown (hc : c ∉ bytes "dxsc%") (hderef : s.fmt.deref = c) :
    ∃ s₁, (printfSwitch c s).Returns s₁ ∧ Switched s s₁ [] [chr '%', c] := by
  have hne : c ≠ chr 'd' ∧ c ≠ chr 'x' ∧ c ≠ chr 's' ∧ c ≠ chr 'c' ∧ c ≠ chr '%' := by
    simpa [bytes] using hc
  obtain ⟨hd, hx, hs, hcc, hp⟩ := hne
  refine ⟨((s.put [chr '%']).read.2.put [c]), ?_, rfl, rfl, ?_, ?_⟩
  · unfold printfSwitch
    rw [if_neg hd, if_neg hx, if_neg hs, if_neg hcc, if_neg hp]
    rw [← hderef]
    exact returns_pure.mpr rfl
  · show s.out ++ [chr '%'] ++ [c] = s.out ++ [chr '%', c]
    rw [List.append_assoc]
    rfl
  · intro a ha
    exact (List.mem_cons.mp ha).symm

/-- The switch on a single piece. -/
theorem exists_switched (h : Prints [.conv c] used out) (hderef : s.fmt.deref = c)
    (hargs : s.args = used ++ rest) :
    ∃ s₁, (printfSwitch c s).Returns s₁ ∧ Switched s s₁ used out := by
  cases h with
  | percent h =>
    cases h
    exact switched_percent
  | arg hr h =>
    cases h
    rw [List.append_nil]
    exact switched_arg hr hargs
  | unknown hc h =>
    cases h
    exact switched_unknown hc hderef

/-! ### The scan -/

/-- The run from `s` to `s₁`, `n` characters of the format later: it has taken the arguments `used`,
printed `out`, and read the format only in front of where it stands now. -/
structure Scanned (s s₁ : Printf) (n : ℕ) (used : List Arg) (out : List Byte) : Prop where
  reach : Reaches printfTurn s s₁
  fmt : s₁.fmt = s.fmt.add n
  args : s.args = used ++ s₁.args
  out : s₁.out = s.out ++ out
  reads : ∀ a ∈ s₁.reads, a ∈ s.reads ∨ a < s.fmt.addr + n

theorem Scanned.refl : Scanned s s 0 [] [] :=
  ⟨.refl, rfl, rfl, (List.append_nil _).symm, fun _ ha => Or.inl ha⟩

theorem Scanned.trans (h₁ : Scanned s s₁ n used₁ out₁) (h₂ : Scanned s₁ s₂ m used₂ out₂) :
    Scanned s s₂ (n + m) (used₁ ++ used₂) (out₁ ++ out₂) where
  reach := h₁.reach.trans h₂.reach
  fmt := by rw [h₂.fmt, h₁.fmt, CharPtr.add_add]
  args := by rw [h₁.args, h₂.args, List.append_assoc]
  out := by rw [h₂.out, h₁.out, List.append_assoc]
  reads := by
    intro a ha
    have haddr : s₁.fmt.addr = s.fmt.addr + n := congrArg CharPtr.addr h₁.fmt
    rcases h₂.reads a ha with ha | ha
    · exact (h₁.reads a ha).imp_right fun hlt => by omega
    · exact Or.inr (by omega)

/-- A turn at a literal character. -/
theorem scanned_lit (hderef : s.fmt.deref = c) (hne : c ≠ 0) (hc : c ≠ chr '%') :
    ∃ s₁, Scanned s s₁ 1 [] [c] := by
  refine ⟨(s.read.2.read.2.read.2.put [c]).next, ?_, rfl, rfl, rfl, ?_⟩
  · refine Relation.ReflTransGen.single ?_
    unfold printfTurn
    simp only [Printf.read, hderef]
    rw [if_neg hne, if_neg hc]
    exact returns_pure.mpr rfl
  · intro a ha
    rcases List.mem_cons.mp ha with rfl | ha
    · exact Or.inr (Nat.lt_succ_self _)
    rcases List.mem_cons.mp ha with rfl | ha
    · exact Or.inr (Nat.lt_succ_self _)
    rcases List.mem_cons.mp ha with rfl | ha
    · exact Or.inr (Nat.lt_succ_self _)
    exact Or.inl ha

/-- A turn at a conversion. It does not matter whether the second character is the terminator. -/
theorem scanned_conv (hderef : s.fmt.deref = chr '%') (hc : s.fmt.inc.deref = c)
    (h : Prints [.conv c] used out) (hargs : s.args = used ++ rest) :
    ∃ s₁, Scanned s s₁ 2 used out := by
  obtain ⟨s₁, hs₁, hsw⟩ : ∃ s₁, (printfSwitch c s.read.2.read.2.next.read.2).Returns s₁ ∧
      Switched s.read.2.read.2.next.read.2 s₁ used out := exists_switched h hc hargs
  refine ⟨s₁.next, ?_, ?_, hsw.args, hsw.out, ?_⟩
  · -- the `%` and the character behind it are read in one turn
    refine Relation.ReflTransGen.single ?_
    unfold printfTurn
    simp only [Printf.read, hderef]
    rw [if_neg (by decide), if_pos trivial]
    subst hc
    exact hs₁.bind (returns_pure.mpr rfl)
  · -- the position is two characters further on
    show s₁.fmt.inc = s.fmt.add 2
    rw [hsw.fmt]
    exact CharPtr.add_add
  · intro a ha
    rcases hsw.reads a ha with ha | rfl
    · -- two reads of the `%` and one of the character behind it
      rcases List.mem_cons.mp ha with rfl | ha
      · exact Or.inr (Nat.lt_succ_self _)
      rcases List.mem_cons.mp ha with rfl | ha
      · exact Or.inr (Nat.lt_succ_of_lt (Nat.lt_succ_self _))
      rcases List.mem_cons.mp ha with rfl | ha
      · exact Or.inr (Nat.lt_succ_of_lt (Nat.lt_succ_self _))
      exact Or.inl ha
    · exact Or.inr (Nat.lt_succ_self _)

/-- The argument of a conversion, if it has one, and the arguments of the pieces behind it. -/
theorem exists_prints_conv (h : List.Forall₂ Accepts (conversions (.conv c :: is)) used) :
    ∃ used₁ used₂ out, used = used₁ ++ used₂ ∧ Prints [.conv c] used₁ out ∧
      List.Forall₂ Accepts (conversions is) used₂ := by
  by_cases hc : c ∈ bytes "dxsc"
  · have hcons : conversions (.conv c :: is) = c :: conversions is := by
      simp [conversions, hc]
    rw [hcons] at h
    cases h with
    | cons ha h =>
      obtain ⟨cs, hcs⟩ := ha
      exact ⟨[_], _, _, rfl, .arg hcs .nil, h⟩
  · have hskip : conversions (.conv c :: is) = conversions is := by
      simp [conversions, hc]
    rw [hskip] at h
    by_cases hp : c = chr '%'
    · subst hp
      exact ⟨[], used, _, rfl, .percent .nil, h⟩
    · refine ⟨[], used, _, rfl, .unknown ?_ .nil, h⟩
      simpa [bytes, hp] using hc

/-! ### The end of the format -/

theorem trailing_le (cs : List Byte) : trailing cs ≤ cs.length :=
  (List.rtakeWhile_suffix _ cs).length_le

theorem trailing_cons : trailing (c :: cs) =
    if trailing cs = cs.length ∧ c = chr '%' then cs.length + 1 else trailing cs := by
  unfold trailing List.rtakeWhile
  rw [List.reverse_cons, List.takeWhile_append, List.length_reverse, List.length_reverse,
    List.length_reverse]
  by_cases hall : (cs.reverse.takeWhile fun c => decide (c = chr '%')).length = cs.length
  · rw [if_pos hall]
    by_cases hc : c = chr '%'
    · rw [if_pos ⟨hall, hc⟩]
      simp [hc]
    · rw [if_neg fun h => hc h.2, hall]
      simp [hc]
  · rw [if_neg hall, if_neg fun h => hall h.1]

theorem trailing_cons_of_ne (hc : c ≠ chr '%') : trailing (c :: cs) = trailing cs := by
  rw [trailing_cons, if_neg fun h => hc h.2]

/-- A conversion at the beginning does not change whether the number is even. -/
theorem even_trailing_conv : Even (trailing (chr '%' :: c :: cs)) ↔ Even (trailing cs) := by
  rw [trailing_cons, trailing_cons, List.length_cons]
  by_cases hall : trailing cs = cs.length ∧ c = chr '%'
  · rw [if_pos hall, if_pos ⟨rfl, rfl⟩, hall.1, Nat.even_add_one, Nat.even_add_one, not_not]
  · rw [if_neg hall]
    rw [if_neg]
    rintro ⟨hlen, _⟩
    have hle := trailing_le cs
    omega

/-- The run through a format comes to its end, or to a `%` in last position. -/
theorem exists_scanned (hfmt : s.fmt.Holds cs)
    (hused : List.Forall₂ Accepts (conversions (items cs)) used) (hargs : s.args = used ++ rest) :
    (Even (trailing cs) ∧ ∃ s₁ out, Scanned s s₁ cs.length used out ∧ Prints (items cs) used out) ∨
      (¬ Even (trailing cs) ∧ ∃ s₁ n used out, Scanned s s₁ n used out ∧ n + 1 = cs.length ∧
        s₁.fmt.Holds [chr '%']) := by
  induction cs using items.induct generalizing s used with
  | case1 =>
    cases hused
    exact Or.inl ⟨by decide, s, [], .refl, .nil⟩
  | case2 c =>
    -- a last character: a percent sign here starts a conversion that has no letter
    by_cases hc : c = chr '%'
    · subst hc
      exact Or.inr ⟨by decide, s, 0, [], [], .refl, rfl, hfmt⟩
    · cases hused
      obtain ⟨s₁, h⟩ := scanned_lit hfmt.1 hfmt.2.1 hc
      exact Or.inl ⟨by rw [trailing_cons_of_ne hc]; decide, s₁, [c], h, .lit c .nil⟩
  | case3 d cs ih =>
    -- a conversion takes two characters, so what trails keeps its parity
    obtain ⟨hp, _, hd, _, hcs⟩ := hfmt
    have hitems : items (chr '%' :: d :: cs) = .conv d :: items cs := if_pos rfl
    rw [hitems] at hused ⊢
    rw [even_trailing_conv]
    obtain ⟨used₁, used₂, out₁, rfl, hprints₁, hused⟩ := exists_prints_conv hused
    rw [List.append_assoc] at hargs
    obtain ⟨s₁, h₁⟩ := scanned_conv hp hd hprints₁ hargs
    have hfmt : s₁.fmt.Holds cs := by
      rw [h₁.fmt]
      exact hcs
    have hargs : s₁.args = used₂ ++ rest := List.append_cancel_left (h₁.args.symm.trans hargs)
    rcases ih hfmt hused hargs with ⟨heven, s₂, out₂, h₂, hprints₂⟩ |
      ⟨hodd, s₂, n, used₃, out₂, h₂, hn, hlast⟩
    · refine Or.inl ⟨heven, s₂, out₁ ++ out₂, ?_, hprints₁.append hprints₂⟩
      rw [List.length_cons, List.length_cons, Nat.add_assoc, Nat.add_comm]
      exact h₁.trans h₂
    · refine Or.inr ⟨hodd, s₂, _, _, _, h₁.trans h₂, ?_, hlast⟩
      rw [List.length_cons, List.length_cons]
      omega
  | case4 c d cs hc ih =>
    -- an ordinary character is put as it is
    obtain ⟨hderef, hne, hcs⟩ := hfmt
    have hitems : items (c :: d :: cs) = .lit c :: items (d :: cs) := if_neg hc
    rw [hitems] at hused ⊢
    rw [trailing_cons_of_ne hc]
    obtain ⟨s₁, h₁⟩ := scanned_lit hderef hne hc
    have hfmt : s₁.fmt.Holds (d :: cs) := by
      rw [h₁.fmt]
      exact hcs
    rcases ih hfmt hused (h₁.args.symm.trans hargs) with ⟨heven, s₂, out₂, h₂, hprints₂⟩ |
      ⟨hodd, s₂, n, used₃, out₂, h₂, hn, hlast⟩
    · refine Or.inl ⟨heven, s₂, c :: out₂, ?_, .lit c hprints₂⟩
      rw [List.length_cons (a := c), Nat.add_comm]
      exact h₁.trans h₂
    · refine Or.inr ⟨hodd, s₂, _, _, _, h₁.trans h₂, ?_, hlast⟩
      simp only [List.length_cons] at hn ⊢
      omega

/-! ### Reads -/

/-- The state that a turn comes to. -/
def Turn.state : Turn Printf Printf → Printf
  | .again s => s
  | .leave s => s

theorem reads_printfSwitch (h : (printfSwitch c s).Returns s₁) (ha : a ∈ s.reads) :
    a ∈ s₁.reads := by
  unfold printfSwitch at h
  simp only [apply_ite (Execution.Returns · s₁), returns_bind, returns_pure] at h
  split_ifs at h
  · obtain ⟨_, _, _, _, rfl⟩ := h
    exact ha
  · obtain ⟨_, _, _, _, rfl⟩ := h
    exact ha
  · obtain ⟨_, _, _, _, rfl⟩ := h
    exact ha
  · obtain ⟨_, _, rfl⟩ := h
    exact ha
  · obtain rfl := h
    exact ha
  · obtain rfl := h
    exact List.mem_cons_of_mem _ ha

/-- A turn reads where it begins. -/
theorem mem_reads_turn {t : Turn Printf Printf} (h : (printfTurn s).Returns t)
    (ha : a = s.fmt.addr ∨ a ∈ s.reads) : a ∈ t.state.reads := by
  have hread : a ∈ s.read.2.reads := List.mem_cons.mpr ha
  unfold printfTurn at h
  simp only [apply_ite (Execution.Returns · t), returns_bind, returns_pure] at h
  split_ifs at h
  · obtain rfl := h
    exact hread
  · obtain ⟨s₁, hs₁, rfl⟩ := h
    have hmem : a ∈ s₁.reads :=
      reads_printfSwitch hs₁ (List.mem_cons_of_mem _ (List.mem_cons_of_mem _ hread))
    exact hmem
  · obtain rfl := h
    exact List.mem_cons_of_mem _ (List.mem_cons_of_mem _ hread)

/-- What `printf` has read when it returns. -/
theorem mem_reads (h : (loop printfTurn s).Returns r) (ha : a = s.fmt.addr ∨ a ∈ s.reads) :
    a ∈ r.reads := by
  rcases returns_loop.mp h with ⟨s₁, hs₁, hr⟩ | hleave
  · refine hr.of_loop (fun s => a ∈ s.reads) (fun r => a ∈ r.reads) ?_ ?_ (mem_reads_turn hs₁ ha)
    · exact fun _ _ ha hturn => mem_reads_turn hturn (Or.inr ha)
    · exact fun _ _ ha hturn => mem_reads_turn hturn (Or.inr ha)
  · exact mem_reads_turn hleave ha

/-- A `%` in last position takes the terminator as its conversion, and then the loop reads on behind
it. -/
theorem mem_reads_of_last (hp : s.fmt.Holds [chr '%']) (h : (loop printfTurn s).Returns r) :
    s.fmt.addr + 2 ∈ r.reads := by
  have hend : s.fmt.inc.deref = 0 := hp.2.2
  have hprints : Prints [.conv 0] [] [chr '%', 0] := .unknown (by decide) .nil
  obtain ⟨s₁, h₁⟩ := scanned_conv hp.1 hend hprints (List.nil_append _).symm
  have hr := h₁.reach.returns_iff.mp h
  refine mem_reads hr (Or.inl ?_)
  rw [h₁.fmt]
  rfl

/-! ### The format -/

section Format

variable {fmt : CharPtr} (hfmt : fmt.Holds cs)
  (hused : List.Forall₂ Accepts (conversions (items cs)) used)

include hfmt hused

/-- Only a format that ends in an even number of `%` is followed. -/
theorem even_of_follows (h : Follows fmt cs used rest) : Even (trailing cs) := by
  obtain ⟨r, hr, _, _, hreads⟩ := h
  rcases exists_scanned (s := ⟨fmt, used ++ rest, [], []⟩) hfmt hused rfl with
    ⟨heven, _⟩ | ⟨_, s₁, n, used₁, out₁, h₁, hn, hlast⟩
  · exact heven
  · -- the last `%` is at the address before the terminator
    have hmem := mem_reads_of_last hlast (h₁.reach.returns_iff.mp hr)
    have hle := hreads _ hmem
    rw [h₁.fmt] at hle
    simp only [CharPtr.add] at hle
    omega

/-- Such a format is followed. -/
theorem follows_of_even (heven : Even (trailing cs)) : Follows fmt cs used rest := by
  rcases exists_scanned (s := ⟨fmt, used ++ rest, [], []⟩) hfmt hused rfl with
    ⟨_, s₁, out, h₁, hprints⟩ | ⟨hodd, _⟩
  · -- the scan has come to the terminator, where the loop is left
    have hend : s₁.fmt.deref = 0 := by
      rw [h₁.fmt]
      exact CharPtr.Holds.append (by rwa [List.append_nil])
    refine ⟨s₁.read.2, ?_, ?_, ?_, ?_⟩
    · refine h₁.reach.returns_iff.mpr (Returns.leave ?_)
      unfold printfTurn
      simp only [Printf.read, hend]
      exact returns_pure.mpr rfl
    · rw [show s₁.read.2.out = out from h₁.out]
      exact hprints
    · exact (List.append_cancel_left h₁.args).symm
    · intro a ha
      have haddr : s₁.fmt.addr = fmt.addr + cs.length := congrArg CharPtr.addr h₁.fmt
      rcases List.mem_cons.mp ha with rfl | ha
      · exact haddr.le
      rcases h₁.reads a ha with ha | ha
      · cases ha
      · exact ha.le
  · exact absurd heven hodd

/-- `printf` follows its format to the end and not beyond exactly if the format ends in an even
number of `%`. -/
theorem printf_follows_iff (rest : List Arg) :
    Follows fmt cs used rest ↔ Even (trailing cs) :=
  ⟨even_of_follows hfmt hused, follows_of_even hfmt hused⟩

end Format

/-- A format with a conversion and an escaped `%` in last position. -/
theorem follows_percent :
    Follows (lit "n=%d%%") (bytes "n=%d%%") [.int (-5)] [] :=
  (printf_follows_iff (holds_lit rfl) (.cons ⟨_, .dec (-5)⟩ .nil) []).mpr (by decide)

/-- A format that is a single `%` is not followed: what lies behind its terminator is printed. -/
theorem not_follows_single_percent :
    (lit "%\x00ab").Holds (bytes "%") ∧
      List.Forall₂ Accepts (conversions (items (bytes "%"))) [] ∧
      ¬ Follows (lit "%\x00ab") (bytes "%") [] [] ∧
      ∃ s, (printf (lit "%\x00ab") []).Returns s ∧ s.out = bytes "%\x00ab" := by
  have hfmt : (lit "%\x00ab").Holds (bytes "%") := by
    refine ⟨rfl, by decide, ?_⟩
    exact rfl
  refine ⟨hfmt, .nil, fun h => ?_, _, ⟨5, rfl⟩, rfl⟩
  exact absurd (even_of_follows hfmt .nil h) (by decide)
