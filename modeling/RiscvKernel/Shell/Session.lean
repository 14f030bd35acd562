import RiscvKernel.Shell.Command

/-!
# A session of the shell

`_start` of the user program: the banner, and then rounds of a prompt, a line and its command, in
one line buffer, until `exit` is run.

* `typedLines`: the lines of the input that are complete.
* `Session.round`: what is done for a line, from the prompt to the end of its command.
* `session_follows`: the shell does this for each line in order, and nothing else; it exits at the
  first line that says so, and otherwise it waits.
-/

open ByteMemory Execution

/-! ### The program -/

/-- `shell_banner`. -/
def shellBanner : Execution (List Effect) := do
  let top ← printed (lit "\n============================================\n")
  let name ← printed (lit "  GeminiOS User Shell\n")
  let help ← printed (lit "  Type 'help' to list built-in commands.\n")
  let bottom ← printed (lit "============================================\n\n")
  pure (top ++ name ++ help ++ bottom)

/-- The state of `_start` between two rounds, with the system calls that it has made. -/
structure Session where
  line : CharArray inputMax
  input : List ReadResult
  effects : List Effect

namespace Session

/-- A turn of `while (1)`. It is the last one if the command is `exit`, because `sys_exit` does not
return. -/
def turn (s : Session) : Execution (Turn Session (List Effect)) := do
  let (prompt, e, r) ← shellRound s.line s.input
  let effects := s.effects ++ puts prompt ++ puts e.out ++ r.effects
  if r.executed = some .exit then pure (.leave effects)
  else pure (.again { line := e.buf, input := e.input, effects })

/-- `_start`. -/
def start (input : List ReadResult) : Execution (List Effect) := do
  let banner ← shellBanner
  loop turn { line := .fresh inputMax, input, effects := banner }

end Session

/-! ### What is typed and what is done -/

/-- The lines of the input that end in a newline. -/
def typedLines (cs : List Byte) : List (List Byte) := (cs.splitOn (chr '\n')).dropLast

/-- What is echoed for a byte, if the line has `len` characters. -/
def keyEcho (cap len : ℕ) (c : Byte) : List Byte :=
  if chr ' ' ≤ c ∧ c ≤ chr '~' then if len < cap - 1 then [c] else []
  else if c = chr '\x08' ∨ c = 127 then if 0 < len then bytes "\x08 \x08" else []
  else []

/-- What is echoed while bytes are typed behind a line. -/
def echo (cap : ℕ) (line : List Byte) : List Byte → List Byte
  | [] => []
  | c :: cs => keyEcho cap line.length c ++ echo cap (editKey cap line c) cs

/-- The command of a line that is typed. -/
def command (cs : List Byte) : List Byte := body (editLine inputMax cs)

/-- The line that is typed says `exit`. -/
def Exits (cs : List Byte) : Prop := dispatch (command cs) = some .exit

instance (cs : List Byte) : Decidable (Exits cs) := inferInstanceAs (Decidable (_ = _))

/-- The banner. -/
def banner : List Effect :=
  puts (bytes "\n============================================\n"
    ++ bytes "  GeminiOS User Shell\n" ++ bytes "  Type 'help' to list built-in commands.\n"
    ++ bytes "============================================\n\n")

/-- What is done for a line that is typed: the prompt, the echo, and the command. -/
def Session.round (cs : List Byte) : List Effect :=
  puts (bytes "geminios> " ++ echo inputMax [] cs ++ [chr '\n']) ++ (ran (command cs)).effects

variable {cap : ℕ} {buf : CharArray cap} {line cs ds : List Byte} {c : Byte} {r : ReadResult}
  {rest input : List ReadResult} {s s' : Editor cap}

theorem typedLines_append (h : chr '\n' ∉ cs) :
    typedLines (cs ++ chr '\n' :: ds) = cs :: typedLines ds := by
  rw [typedLines, typedLines, List.splitOn_append_cons_self, List.splitOn_eq_singleton h,
    List.singleton_append, List.dropLast_cons_of_ne_nil (List.splitOn_ne_nil _ _)]

theorem typedLines_eq_nil (h : chr '\n' ∉ cs) : typedLines cs = [] := by
  rw [typedLines, List.splitOn_eq_singleton h, List.dropLast_singleton]

theorem received_append {input' : List ReadResult} :
    received (input ++ input') = received input ++ received input' := by
  rw [received, List.filter_append, List.map_append, received, received]

theorem received_cons_newline (hr : r.IsNewline) :
    received (r :: rest) = chr '\n' :: received rest := by
  simp [received, hr.1, hr.2]

theorem not_mem_received (h : ∀ x ∈ input, ¬ x.IsNewline) : chr '\n' ∉ received input := by
  rw [received, List.mem_map]
  rintro ⟨x, hx, hch⟩
  rw [List.mem_filter, decide_eq_true_eq] at hx
  exact h x hx.1 ⟨hx.2, hch⟩

/-- The input up to the first newline, or all of it. -/
theorem input_cases (input : List ReadResult) : (∀ x ∈ input, ¬ x.IsNewline) ∨
    ∃ pre r rest, input = pre ++ r :: rest ∧ (∀ x ∈ pre, ¬ x.IsNewline) ∧ r.IsNewline := by
  induction input with
  | nil => simp
  | cons x input ih =>
    by_cases hx : x.IsNewline
    · exact Or.inr ⟨[], x, input, rfl, by simp, hx⟩
    · rcases ih with hnone | ⟨pre, r, rest, rfl, hpre, hr⟩
      · exact Or.inl (List.forall_mem_cons.mpr ⟨hx, hnone⟩)
      · exact Or.inr ⟨x :: pre, r, rest, rfl, List.forall_mem_cons.mpr ⟨hx, hpre⟩, hr⟩

/-! ### The line editor -/

theorem out_of_print {msg : String} (h : (bytes msg).all (· ≠ 0))
    (hs : (s.print (lit msg)).Returns s') : s' = { s with out := s.out ++ bytes msg } :=
  hs.unique (returns_print h)

theorem keyEcho_backspace {len : ℕ} (hc : c = chr '\x08' ∨ c = 127) :
    keyEcho cap len c = if 0 < len then bytes "\x08 \x08" else [] := by
  have hnot : ¬ (chr ' ' ≤ c ∧ c ≤ chr '~') := by
    rcases hc with rfl | rfl <;> decide
  rw [keyEcho, if_neg hnot, if_pos hc]

theorem keyEcho_control {len : ℕ} (hc : c < chr ' ' ∨ chr '~' < c)
    (hne : ¬ (c = chr '\x08' ∨ c = 127)) : keyEcho cap len c = [] := by
  have hnot : ¬ (chr ' ' ≤ c ∧ c ≤ chr '~') := by
    rintro ⟨hlo, hhi⟩
    rcases hc with hc | hc
    · exact absurd hlo (BitVec.not_le.mpr hc)
    · exact absurd hhi (BitVec.not_le.mpr hc)
  rw [keyEcho, if_neg hnot, if_neg hne]

theorem keyEcho_char {len : ℕ} (hc : ¬ (c < chr ' ' ∨ chr '~' < c)) :
    keyEcho cap len c = if len < cap - 1 then [c] else [] := by
  obtain ⟨hlo, hhi⟩ := not_or.mp hc
  rw [keyEcho, if_pos ⟨BitVec.not_lt.mp hlo, BitVec.not_lt.mp hhi⟩]

/-- What a turn of the line editor echoes. -/
theorem Editor.out_of_again (hinput : s.input = r :: rest) (h : s.turn.Returns (.again s')) :
    s'.out = s.out ++ if 0 < r.ret.toInt then keyEcho cap s.len r.ch else [] := by
  unfold Editor.turn at h
  rw [hinput] at h
  simp only [apply_ite (Execution.Returns · (Turn.again s')), returns_bind, returns_pure] at h
  by_cases hret : r.ret.toInt ≤ 0
  · rw [if_pos hret] at h
    cases h
    rw [if_neg (by omega), List.append_nil]
  rw [if_neg hret] at h
  rw [if_pos (by omega)]
  split_ifs at h with hnl hback hlen hctl hroom
  · -- the newline leaves the loop
    obtain ⟨_, _, _, _, hfalse⟩ := h
    cases hfalse
  · -- the last character is erased
    obtain ⟨s₁, hprint, heq⟩ := h
    cases heq
    rw [out_of_print rfl hprint, keyEcho_backspace hback, if_pos hlen]
  · -- there is none to erase
    cases h
    rw [keyEcho_backspace hback, if_neg hlen, List.append_nil]
  · -- other control characters are passed over
    cases h
    rw [keyEcho_control hctl hback, List.append_nil]
  · -- a character is stored, and echoed
    obtain ⟨buf, -, heq⟩ := h
    cases heq
    rw [keyEcho_char hctl, if_pos (by omega)]
  · -- the line is full
    cases h
    rw [keyEcho_char hctl, if_neg (by omega), List.append_nil]

/-- What the turn on the newline echoes. -/
theorem Editor.out_of_leave (hinput : s.input = r :: rest) (hr : r.IsNewline)
    (h : s.turn.Returns (.leave s')) : s'.out = s.out ++ [chr '\n'] := by
  unfold Editor.turn at h
  rw [hinput] at h
  have hret : ¬ r.ret.toInt ≤ 0 := Int.not_le.mpr hr.1
  simp only [if_neg hret, if_pos hr.2, returns_bind, returns_pure] at h
  obtain ⟨s₁, hprint, buf', -, heq⟩ := h
  cases heq
  rw [out_of_print rfl hprint]
  rfl

/-- The line editor, on input with a newline: the line, and what it leaves of the input. -/
theorem exists_line (hcap : 1 ≤ cap) {pre : List ReadResult} (h : Shows buf line s)
    (hinput : s.input = pre ++ r :: rest) (hpre : ∀ x ∈ pre, ¬ x.IsNewline) (hr : r.IsNewline) :
    ∃ s', (loop Editor.turn s).Returns s' ∧
      Entered buf ((received pre).foldl (editKey cap) line) s' ∧ s'.input = rest ∧
      s'.out = s.out ++ echo cap line (received pre) ++ [chr '\n'] := by
  induction pre generalizing s line with
  | nil =>
    obtain ⟨s', hturn, hinput', hs'⟩ := h.leave hcap hinput hr
    refine ⟨s', hturn.leave, hs', hinput', ?_⟩
    rw [Editor.out_of_leave hinput hr hturn]
    simp [received, echo]
  | cons x pre ih =>
    -- a turn for the first result, and the others from where it ends
    obtain ⟨hx, hpre⟩ := List.forall_mem_cons.mp hpre
    obtain ⟨s₁, hturn, hinput₁, h₁⟩ := h.turn hinput hx
    obtain ⟨s', hs', hentered, hrest, hout⟩ := ih h₁ hinput₁ hpre
    refine ⟨s', hturn.again hs', ?_, hrest, ?_⟩
    · by_cases hret : 0 < x.ret.toInt
      · rw [editResult, if_pos hret] at hentered
        simpa [received, hret] using hentered
      · rw [editResult, if_neg hret] at hentered
        simpa [received, hret] using hentered
    · rw [hout, Editor.out_of_again hinput hturn, h.len]
      by_cases hret : 0 < x.ret.toInt
      · simp [received, hret, echo, editResult]
      · simp [received, hret, editResult]

/-- Without a newline the line editor waits. -/
theorem not_returns_line (h : Shows buf line s) (hnone : ∀ x ∈ s.input, ¬ x.IsNewline) :
    ¬ (loop Editor.turn s).Returns s' := by
  induction hinput : s.input generalizing s line with
  | nil =>
    -- no result is left, and `sys_read` does not return
    intro hs'
    rcases returns_loop.mp hs' with ⟨s₁, hturn, -⟩ | hturn
    · unfold Editor.turn at hturn
      rw [hinput] at hturn
      exact not_returns_undefined hturn
    · unfold Editor.turn at hturn
      rw [hinput] at hturn
      exact not_returns_undefined hturn
  | cons x rest ih =>
    rw [hinput] at hnone
    obtain ⟨hx, hrest⟩ := List.forall_mem_cons.mp hnone
    obtain ⟨s₁, hturn, hinput₁, h₁⟩ := h.turn hinput hx
    intro hs'
    exact ih h₁ (by rwa [hinput₁]) hinput₁ (hs'.of_again hturn)

/-! ### Rounds -/

namespace Session

variable {t : Session} {es : List Effect}

/-- A round with a line. -/
theorem exists_round {pre : List ReadResult} (hinput : t.input = pre ++ r :: rest)
    (hpre : ∀ x ∈ pre, ¬ x.IsNewline) (hr : r.IsNewline) :
    (Exits (received pre) →
      t.turn.Returns (.leave (t.effects ++ Session.round (received pre)))) ∧
    (¬ Exits (received pre) → ∃ t', t.turn.Returns (.again t') ∧ t'.input = rest ∧
      t'.effects = t.effects ++ Session.round (received pre)) := by
  -- whatever the buffer still holds, the editor starts with an empty line
  obtain ⟨e, he, hentered, hrest, hout⟩ :=
    exists_line (by decide) (shows_nil t.line t.input) hinput hpre hr
  have hcommand : (runCommand e.buf.ptr).Returns (ran (command (received pre))) :=
    runCommand_returns (Entered.holds hentered)
  have hround : (shellRound t.line t.input).Returns
      (bytes "geminios> ", e, ran (command (received pre))) :=
    (returns_each (holds_lit rfl)).bind (he.bind (hcommand.bind (returns_pure.mpr rfl)))
  have heffects : t.effects ++ puts (bytes "geminios> ") ++ puts e.out
      ++ (ran (command (received pre))).effects = t.effects ++ Session.round (received pre) := by
    rw [hout, Session.round]
    simp [puts]
  refine ⟨fun hexit => hround.bind ?_, fun hstay => ?_⟩
  · -- `sys_exit` does not return
    have hexecuted : (ran (command (received pre))).executed = some .exit := hexit
    simp only [if_pos hexecuted, heffects]
    exact returns_pure.mpr rfl
  · have hexecuted : (ran (command (received pre))).executed ≠ some .exit := hstay
    refine ⟨⟨e.buf, rest, t.effects ++ Session.round (received pre)⟩, hround.bind ?_, rfl, rfl⟩
    simp only [if_neg hexecuted, heffects, hrest]
    exact returns_pure.mpr rfl

/-- Without a line the round does not end. -/
theorem not_returns_turn (hnone : ∀ x ∈ t.input, ¬ x.IsNewline) {u : Turn Session (List Effect)} :
    ¬ t.turn.Returns u := by
  intro h
  obtain ⟨x, hround, -⟩ := returns_bind.mp h
  obtain ⟨prompt, -, hround⟩ := returns_bind.mp hround
  obtain ⟨e, he, -⟩ := returns_bind.mp hround
  exact not_returns_line (shows_nil t.line t.input) hnone he

/-- A line that has been typed is the part of the input in front of a newline. -/
theorem exists_of_typedLines {ls : List (List Byte)}
    (h : typedLines (received input) = cs :: ls) :
    ∃ pre r rest, input = pre ++ r :: rest ∧ (∀ x ∈ pre, ¬ x.IsNewline) ∧ r.IsNewline ∧
      received pre = cs ∧ typedLines (received rest) = ls := by
  rcases input_cases input with hnone | ⟨pre, r, rest, rfl, hpre, hr⟩
  · rw [typedLines_eq_nil (not_mem_received hnone)] at h
    cases h
  · rw [received_append, received_cons_newline hr, typedLines_append (not_mem_received hpre)] at h
    obtain ⟨hcs, hls⟩ := List.cons.inj h
    exact ⟨pre, r, rest, rfl, hpre, hr, hcs, hls⟩

/-- The rounds of lines that do not say `exit`. -/
theorem exists_reaches {pre post : List (List Byte)}
    (hlines : typedLines (received t.input) = pre ++ post) (hpre : ∀ l ∈ pre, ¬ Exits l) :
    ∃ t', Reaches turn t t' ∧ typedLines (received t'.input) = post ∧
      t'.effects = t.effects ++ pre.flatMap Session.round := by
  induction pre generalizing t with
  | nil => exact ⟨t, .refl, hlines, by simp⟩
  | cons l pre ih =>
    rw [List.forall_mem_cons] at hpre
    obtain ⟨hl, hpre⟩ := hpre
    obtain ⟨xs, r, rest, hinput, hxs, hr, rfl, hrest⟩ := exists_of_typedLines hlines
    obtain ⟨t₁, hturn, hinput₁, heffects₁⟩ := (exists_round hinput hxs hr).2 hl
    rw [← hinput₁] at hrest
    obtain ⟨t', hreach, hlines', heffects⟩ := ih hrest hpre
    refine ⟨t', hreach.head hturn, hlines', ?_⟩
    rw [heffects, heffects₁, List.flatMap_cons, List.append_assoc]

/-- The rounds up to the first line that says `exit`. -/
theorem returns_of_exits {pre post : List (List Byte)} {last : List Byte}
    (hlines : typedLines (received t.input) = pre ++ last :: post) (hpre : ∀ l ∈ pre, ¬ Exits l)
    (hlast : Exits last) :
    (loop turn t).Returns (t.effects ++ (pre ++ [last]).flatMap Session.round) := by
  obtain ⟨t', hreach, hlines', heffects⟩ := exists_reaches hlines hpre
  obtain ⟨xs, r, rest, hinput, hxs, hr, rfl, -⟩ := exists_of_typedLines hlines'
  have hleave := (exists_round hinput hxs hr).1 hlast
  rw [heffects, List.append_assoc] at hleave
  refine hreach.returns_iff.mpr (Returns.leave ?_)
  rwa [List.flatMap_append, List.flatMap_singleton]

/-- Without such a line the shell comes to a round that does not end. -/
theorem not_returns_of_stays (h : ∀ l ∈ typedLines (received t.input), ¬ Exits l) :
    ¬ (loop turn t).Returns es := by
  obtain ⟨t', hreach, hlines, -⟩ := exists_reaches (List.append_nil _).symm h
  -- what is left after the last line has no newline
  have hnone : ∀ x ∈ t'.input, ¬ x.IsNewline := by
    rcases input_cases t'.input with hnone | ⟨pre, r, rest, hinput, hpre, hr⟩
    · exact hnone
    · rw [hinput, received_append, received_cons_newline hr,
        typedLines_append (not_mem_received hpre)] at hlines
      cases hlines
  rw [hreach.returns_iff, returns_loop]
  rintro (⟨s', hturn, -⟩ | hturn)
  · exact not_returns_turn hnone hturn
  · exact not_returns_turn hnone hturn

theorem returns_iff : (loop turn t).Returns es ↔ ∃ pre last post,
    typedLines (received t.input) = pre ++ last :: post ∧ (∀ l ∈ pre, ¬ Exits l) ∧ Exits last ∧
      es = t.effects ++ (pre ++ [last]).flatMap Session.round := by
  constructor
  · intro h
    -- is there a first line that says `exit`?
    cases hfind : (typedLines (received t.input)).find? (Exits ·) with
    | none =>
      refine absurd h (not_returns_of_stays fun l hl => ?_)
      simpa using List.find?_eq_none.mp hfind l hl
    | some last =>
      obtain ⟨hlast, pre, post, hlines, hpre⟩ := List.find?_eq_some_iff_append.mp hfind
      have hpre' : ∀ l ∈ pre, ¬ Exits l := by simpa using hpre
      have hlast' : Exits last := by simpa using hlast
      have hreturns := returns_of_exits hlines hpre' hlast'
      exact ⟨pre, last, post, hlines, hpre', hlast', h.unique hreturns⟩
  · rintro ⟨pre, last, post, hlines, hpre, hlast, rfl⟩
    exact returns_of_exits hlines hpre hlast

end Session

theorem shellBanner_returns : shellBanner.Returns banner := by
  have hmessage : ∀ {msg : String}, (bytes msg).all (· ≠ 0) →
      (printed (lit msg)).Returns (puts (bytes msg)) := fun h => printed_returns (holds_lit h)
  refine (hmessage rfl).bind ((hmessage rfl).bind ((hmessage rfl).bind ((hmessage rfl).bind ?_)))
  rw [returns_pure, banner]
  simp [puts]

/-- The shell runs the commands of the lines that are typed, each once and in order: whatever the
input is, it comes to the round after any number of complete lines that do not say `exit`, having
made the system calls of their rounds and no others; and it ends exactly if a line says `exit`, with
the round of the first such line. -/
theorem session_follows (input : List ReadResult) :
    (∀ pre post, typedLines (received input) = pre ++ post → (∀ l ∈ pre, ¬ Exits l) →
      ∃ t, Reaches Session.turn { line := .fresh inputMax, input, effects := banner } t ∧
        typedLines (received t.input) = post ∧
        t.effects = banner ++ pre.flatMap Session.round) ∧
    ∀ es, (Session.start input).Returns es ↔ ∃ pre last post,
      typedLines (received input) = pre ++ last :: post ∧ (∀ l ∈ pre, ¬ Exits l) ∧ Exits last ∧
        es = banner ++ (pre ++ [last]).flatMap Session.round := by
  refine ⟨fun pre post hlines hpre => Session.exists_reaches hlines hpre, fun es => ?_⟩
  rw [Session.start, returns_bind]
  constructor
  · rintro ⟨b, hbanner, h⟩
    obtain rfl := hbanner.unique shellBanner_returns
    exact Session.returns_iff.mp h
  · exact fun h => ⟨banner, shellBanner_returns, Session.returns_iff.mpr h⟩
