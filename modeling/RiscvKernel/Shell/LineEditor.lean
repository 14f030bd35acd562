import RiscvKernel.Lib.CString

/-!
# The line editor of the shell

`shell_read_line` of the user program. It reads one byte after the other, keeps a line in a buffer
of `cap` characters, and echoes what it does to the line. The results of `sys_read` are given as a
list; when it has come to its end the shell waits, and does not return.

* `editLine`: what the bytes that are typed make of an empty line.
* `shown`: what is on the screen after some output, with backspace, space, backspace read as the
  removal of a character.
* `Shows`: buffer, length and screen agree about the line.
* `shellReadLine_edits`: they do so at every time, and the line that is returned is the one that
  has been typed.
-/

open ByteMemory Execution

/-! ### Definitions -/

/-- What a call of `sys_read` leaves: its result and the character that it has stored. -/
structure ReadResult where
  ret : Word
  ch : Byte

/-- `sys_print`, with what it prints as its result. -/
def sysPrint (s : CharPtr) : Execution (List Byte) := each s

/-- The state of `shell_read_line`, with the results of the calls of `sys_read` that are still to
come and everything that has been printed. -/
structure Editor (cap : ℕ) where
  len : ℕ
  buf : CharArray cap
  input : List ReadResult
  out : List Byte

namespace Editor

variable {cap : ℕ}

/-- `sys_print`. -/
def print (s : Editor cap) (msg : CharPtr) : Execution (Editor cap) := do
  let cs ← sysPrint msg
  pure { s with out := s.out ++ cs }

/-- A turn of `while (1)`. -/
def turn (s : Editor cap) : Execution (Turn (Editor cap) (Editor cap)) :=
  match s.input with
  | [] => undefined
  | r :: input =>
    let s := { s with input }
    if r.ret.toInt ≤ 0 then pure (.again s)
    else if r.ch = chr '\n' then do
      let s ← s.print (lit "\n")
      let buf ← s.buf.store s.len 0
      pure (.leave { s with buf })
    else if r.ch = chr '\x08' ∨ r.ch = 127 then
      if 0 < s.len then do
        let s := { s with len := s.len - 1 }
        let s ← s.print (lit "\x08 \x08")
        pure (.again s)
      else pure (.again s)
    else if r.ch < chr ' ' ∨ chr '~' < r.ch then pure (.again s)
    else if s.len + 1 < cap then do
      let buf ← s.buf.store s.len r.ch
      pure (.again { s with buf, len := s.len + 1, out := s.out ++ [r.ch] })
    else pure (.again s)

end Editor

/-- `shell_read_line`. -/
def shellReadLine {cap : ℕ} (buf : CharArray cap) (input : List ReadResult) :
    Execution (Editor cap) :=
  loop Editor.turn { len := 0, buf, input, out := [] }

/-! ### What is typed and what is shown -/

/-- What a byte does to a line. -/
def editKey (cap : ℕ) (line : List Byte) (c : Byte) : List Byte :=
  if chr ' ' ≤ c ∧ c ≤ chr '~' then if line.length < cap - 1 then line ++ [c] else line
  else if c = chr '\x08' ∨ c = 127 then line.dropLast
  else line

/-- What bytes make of an empty line. -/
def editLine (cap : ℕ) (cs : List Byte) : List Byte := cs.foldl (editKey cap) []

/-- The bytes of the results that are not skipped. -/
def received (input : List ReadResult) : List Byte :=
  (input.filter fun r => 0 < r.ret.toInt).map ReadResult.ch

/-- The bytes before the first newline. -/
def typed (input : List ReadResult) : List Byte := (received input).takeWhile (· ≠ chr '\n')

/-- What is on the screen if `line` is there and `out` is printed. -/
def shownAfter (line : List Byte) : List Byte → List Byte
  | a :: b :: c :: out =>
    if [a, b, c] = bytes "\x08 \x08" then shownAfter line.dropLast out
    else shownAfter (line ++ [a]) (b :: c :: out)
  | out => line ++ out

/-- What is on the screen. -/
def shown (out : List Byte) : List Byte := shownAfter [] out

/-- What is printed behind `out` does not change how it is read. -/
def Complete (out : List Byte) : Prop :=
  ∀ line rest, shownAfter line (out ++ rest) = shownAfter (shownAfter line out) rest

variable {cap : ℕ} {line out out' : List Byte} {c : Byte} {s s' : Editor cap} {r : ReadResult}
variable {rest : List ReadResult} {buf : CharArray cap}

theorem Complete.append (h : Complete out) (h' : Complete out') : Complete (out ++ out') := by
  intro line rest
  rw [List.append_assoc, h, h', h]

theorem Complete.shown (h : Complete out) : shown (out ++ out') = shownAfter (shown out) out' :=
  h [] out'

theorem shownAfter_nil : shownAfter line [] = line := List.append_nil line

theorem complete_nil : Complete [] := by
  intro line rest
  rw [List.nil_append, shownAfter_nil]

theorem shownAfter_cons (hc : c ≠ chr '\x08') :
    shownAfter line (c :: out) = shownAfter (line ++ [c]) out := by
  match out with
  | [] => simp [shownAfter]
  | [a] => simp [shownAfter]
  | a :: b :: out =>
    rw [shownAfter, if_neg]
    intro h
    exact hc (List.cons.inj h).1

theorem complete_char (hc : c ≠ chr '\x08') : Complete [c] := by
  intro line rest
  rw [List.singleton_append, shownAfter_cons hc]
  rfl

theorem shownAfter_erase (line out : List Byte) :
    shownAfter line (bytes "\x08 \x08" ++ out) = shownAfter line.dropLast out :=
  if_pos rfl

theorem complete_erase : Complete (bytes "\x08 \x08") := by
  intro line rest
  have hnil := shownAfter_erase line []
  rw [List.append_nil] at hnil
  rw [shownAfter_erase, hnil, shownAfter_nil]

/-! ### The invariant -/

/-- Buffer, length and screen show `line`, and nothing has been written beyond the buffer. -/
structure Shows (buf : CharArray cap) (line : List Byte) (s : Editor cap) : Prop where
  len : s.len = line.length
  fits : line.length ≤ cap - 1
  text : s.buf.text s.len = line.map some
  screen : shown s.out = line
  complete : Complete s.out
  beyond : ∀ i, cap ≤ i → s.buf.cell i = buf.cell i

theorem Shows.skip (h : Shows buf line s) (rest : List ReadResult) :
    Shows buf line { s with input := rest } :=
  ⟨h.len, h.fits, h.text, h.screen, h.complete, h.beyond⟩

theorem returns_print {msg : String} (h : (bytes msg).all (· ≠ 0)) :
    (s.print (lit msg)).Returns { s with out := s.out ++ bytes msg } :=
  (returns_each (holds_lit h)).bind (returns_pure.mpr rfl)

/-- A character at the end of the line. -/
theorem Shows.char (h : Shows buf line s) (hc : c ≠ chr '\x08') (hlt : s.len + 1 < cap) :
    Shows buf (line ++ [c])
      { s with buf := s.buf.set s.len c, len := s.len + 1, out := s.out ++ [c] } where
  len := by rw [List.length_append, List.length_singleton, h.len]
  fits := by
    rw [List.length_append, List.length_singleton, ← h.len]
    omega
  text := by
    show (s.buf.set s.len c).text (s.len + 1) = _
    rw [CharArray.text_set, h.text, List.map_append, List.map_singleton]
  screen := by
    show shown (s.out ++ [c]) = _
    rw [h.complete.shown, h.screen, shownAfter_cons hc, shownAfter_nil]
  complete := h.complete.append (complete_char hc)
  beyond := by
    intro i hi
    show (s.buf.set s.len c).cell i = _
    rw [CharArray.set_cell_of_ne (by omega), h.beyond i hi]

/-- The last character is removed. -/
theorem Shows.erase (h : Shows buf line s) :
    Shows buf line.dropLast
      { s with len := s.len - 1, out := s.out ++ bytes "\x08 \x08" } where
  len := by rw [List.length_dropLast, h.len]
  fits := by
    have hfits := h.fits
    rw [List.length_dropLast]
    omega
  text := by
    show s.buf.text (s.len - 1) = _
    rw [CharArray.text_pred, h.text, List.map_dropLast]
  screen := by
    have herase := shownAfter_erase line []
    rw [List.append_nil, shownAfter_nil] at herase
    show shown (s.out ++ bytes "\x08 \x08") = _
    rw [h.complete.shown, h.screen, herase]
  complete := h.complete.append complete_erase
  beyond := h.beyond

/-- The line after a result that is not a newline. -/
def editResult (cap : ℕ) (line : List Byte) (r : ReadResult) : List Byte :=
  if 0 < r.ret.toInt then editKey cap line r.ch else line

/-- A result of `sys_read` ends the line. -/
def ReadResult.IsNewline (r : ReadResult) : Prop := 0 < r.ret.toInt ∧ r.ch = chr '\n'

theorem editKey_backspace (hc : c = chr '\x08' ∨ c = 127) : editKey cap line c = line.dropLast := by
  have hnot : ¬ (chr ' ' ≤ c ∧ c ≤ chr '~') := by
    rcases hc with rfl | rfl <;> decide
  rw [editKey, if_neg hnot, if_pos hc]

theorem editKey_control (hc : c < chr ' ' ∨ chr '~' < c) (hne : ¬ (c = chr '\x08' ∨ c = 127)) :
    editKey cap line c = line := by
  have hnot : ¬ (chr ' ' ≤ c ∧ c ≤ chr '~') := by
    rintro ⟨hlo, hhi⟩
    rcases hc with hc | hc
    · exact absurd hlo (BitVec.not_le.mpr hc)
    · exact absurd hhi (BitVec.not_le.mpr hc)
  rw [editKey, if_neg hnot, if_neg hne]

theorem editKey_char (hc : ¬ (c < chr ' ' ∨ chr '~' < c)) :
    editKey cap line c = if line.length < cap - 1 then line ++ [c] else line := by
  obtain ⟨hlo, hhi⟩ := not_or.mp hc
  rw [editKey, if_pos ⟨BitVec.not_lt.mp hlo, BitVec.not_lt.mp hhi⟩]

/-- A turn on a result that does not end the line. -/
theorem Shows.turn (h : Shows buf line s) (hinput : s.input = r :: rest) (hr : ¬ r.IsNewline) :
    ∃ s', s.turn.Returns (.again s') ∧ s'.input = rest ∧ Shows buf (editResult cap line r) s' := by
  unfold Editor.turn editResult
  rw [hinput]
  by_cases hret : r.ret.toInt ≤ 0
  · have hskip : ¬ 0 < r.ret.toInt := by omega
    -- nothing was read
    refine ⟨{ s with input := rest }, ?_, rfl, ?_⟩
    · simp only [if_pos hret]
      exact returns_pure.mpr rfl
    · rw [if_neg hskip]
      exact h.skip rest
  have hpos : 0 < r.ret.toInt := by omega
  have hnl : r.ch ≠ chr '\n' := fun hch => hr ⟨hpos, hch⟩
  rw [if_pos hpos]
  simp only [if_neg hret, if_neg hnl]
  by_cases hback : r.ch = chr '\x08' ∨ r.ch = 127
  · -- backspace or delete: the last character goes from the line and from the screen
    rw [editKey_backspace hback]
    simp only [if_pos hback]
    by_cases hlen : 0 < s.len
    · simp only [if_pos hlen]
      exact ⟨_, (returns_print rfl).bind (returns_pure.mpr rfl), rfl, (h.skip rest).erase⟩
    · -- the line is empty and stays so
      have hnil : line = [] := List.length_eq_zero_iff.mp (by rw [← h.len]; omega)
      subst hnil
      simp only [if_neg hlen]
      exact ⟨_, returns_pure.mpr rfl, rfl, h.skip rest⟩
  simp only [if_neg hback]
  by_cases hctl : r.ch < chr ' ' ∨ chr '~' < r.ch
  · -- any other control character is ignored
    rw [editKey_control hctl hback]
    simp only [if_pos hctl]
    exact ⟨_, returns_pure.mpr rfl, rfl, h.skip rest⟩
  rw [editKey_char hctl]
  simp only [if_neg hctl]
  by_cases hlt : s.len + 1 < cap
  · -- there is room for the character and the null behind it
    have hshort : line.length < cap - 1 := by rw [← h.len]; omega
    rw [if_pos hshort]
    simp only [if_pos hlt]
    refine ⟨_, (CharArray.returns_store (by omega)).bind (returns_pure.mpr rfl), rfl, ?_⟩
    exact (h.skip rest).char (fun hc => hback (Or.inl hc)) hlt
  · -- the buffer is full: the character is neither kept nor echoed
    have hfull : ¬ line.length < cap - 1 := by rw [← h.len]; omega
    rw [if_neg hfull]
    simp only [if_neg hlt]
    exact ⟨_, returns_pure.mpr rfl, rfl, h.skip rest⟩

/-- What is returned for a line: it is in the buffer with its terminator, and it is on the screen
in front of the newline. -/
structure Entered (buf : CharArray cap) (line : List Byte) (s : Editor cap) : Prop where
  len : s.len = line.length
  fits : s.len ≤ cap - 1
  text : s.buf.text s.len = line.map some
  ends : s.buf.cell s.len = some 0
  screen : ∃ echoed, s.out = echoed ++ [chr '\n'] ∧ shown echoed = line
  beyond : ∀ i, cap ≤ i → s.buf.cell i = buf.cell i

/-- The turn on the newline. -/
theorem Shows.leave (hcap : 1 ≤ cap) (h : Shows buf line s) (hinput : s.input = r :: rest)
    (hr : r.IsNewline) :
    ∃ s', s.turn.Returns (.leave s') ∧ s'.input = rest ∧ Entered buf line s' := by
  have hret : ¬ r.ret.toInt ≤ 0 := Int.not_le.mpr hr.1
  have hlt : s.len < cap := by
    have hfits := h.fits
    rw [h.len]
    omega
  unfold Editor.turn
  rw [hinput]
  simp only [if_neg hret, if_pos hr.2]
  refine ⟨_, (returns_print rfl).bind
    ((CharArray.returns_store hlt).bind (returns_pure.mpr rfl)), rfl, ?_⟩
  refine ⟨h.len, ?_, ?_, CharArray.set_cell, ⟨s.out, rfl, h.screen⟩, ?_⟩
  · exact h.len.trans_le h.fits
  · rw [← h.text]
    exact CharArray.text_set_of_le le_rfl
  · intro i hi
    rw [← h.beyond i hi]
    exact CharArray.set_cell_of_ne (by omega)

theorem typed_cons_newline (hr : r.IsNewline) : typed (r :: rest) = [] := by
  simp [typed, received, hr.1, hr.2]

/-- A result that does not end the line, and the bytes behind it. -/
theorem foldl_typed_cons (hr : ¬ r.IsNewline) :
    (typed (r :: rest)).foldl (editKey cap) line =
      (typed rest).foldl (editKey cap) (editResult cap line r) := by
  unfold editResult
  by_cases hret : 0 < r.ret.toInt
  · have hne : r.ch ≠ chr '\n' := fun hch => hr ⟨hret, hch⟩
    have htyped : typed (r :: rest) = r.ch :: typed rest := by
      simp [typed, received, hret, hne]
    rw [htyped, List.foldl_cons, if_pos hret]
  · have htyped : typed (r :: rest) = typed rest := by
      simp [typed, received, hret]
    rw [htyped, if_neg hret]

/-- The results up to the first newline, one turn for each. -/
theorem exists_entered (hcap : 1 ≤ cap) (h : Shows buf line s)
    (hnl : ∃ r ∈ s.input, r.IsNewline) :
    ∃ s', (loop Editor.turn s).Returns s' ∧
      Entered buf ((typed s.input).foldl (editKey cap) line) s' := by
  induction hinput : s.input generalizing s line with
  | nil => simp [hinput] at hnl
  | cons r rest ih =>
    by_cases hr : r.IsNewline
    · obtain ⟨s', hturn, _, hs'⟩ := h.leave hcap hinput hr
      rw [typed_cons_newline hr]
      exact ⟨s', hturn.leave, hs'⟩
    · obtain ⟨s₁, hturn, hinput₁, h₁⟩ := h.turn hinput hr
      have hnl₁ : ∃ r ∈ s₁.input, r.IsNewline := by
        rw [hinput₁]
        simpa [hinput, hr] using hnl
      obtain ⟨s', hs', hentered⟩ := ih h₁ hnl₁ hinput₁
      rw [foldl_typed_cons hr]
      exact ⟨s', hturn.again hs', hentered⟩

/-- There is no terminator in a line that is typed. -/
theorem ne_zero_of_mem_foldl {cs : List Byte} (hline : ∀ c ∈ line, c ≠ 0) :
    ∀ c ∈ cs.foldl (editKey cap) line, c ≠ 0 := by
  induction cs generalizing line with
  | nil => exact hline
  | cons d cs ih =>
    refine ih fun c hc => ?_
    unfold editKey at hc
    split_ifs at hc with hd hlen
    · rcases List.mem_append.mp hc with hc | hc
      · exact hline c hc
      · obtain rfl := List.mem_singleton.mp hc
        rintro rfl
        exact absurd hd.1 (by decide)
    · exact hline c hc
    · exact hline c (List.dropLast_subset line hc)
    · exact hline c hc

/-- The buffer that is returned is the line as a string. -/
theorem Entered.holds {cs : List Byte} (h : Entered buf (editLine cap cs) s) :
    s.buf.ptr.Holds (editLine cap cs) := by
  have htext := h.text
  have hend := h.ends
  rw [h.len] at htext hend
  exact CharArray.holds_ptr htext (ne_zero_of_mem_foldl (by simp)) hend

/-- The editor with an empty line. -/
theorem shows_nil (buf : CharArray cap) (input : List ReadResult) :
    Shows buf [] { len := 0, buf, input, out := [] } :=
  ⟨rfl, Nat.zero_le _, rfl, rfl, complete_nil, fun _ _ => rfl⟩

/-- A turn keeps buffer and screen in step. -/
theorem Shows.exists_again (hcap : 1 ≤ cap) (h : Shows buf line s)
    (hturn : s.turn.Returns (.again s')) :
    ∃ line', Shows buf line' s' := by
  cases hinput : s.input with
  | nil =>
    unfold Editor.turn at hturn
    rw [hinput] at hturn
    exact absurd hturn not_returns_undefined
  | cons r rest =>
    by_cases hr : r.IsNewline
    · obtain ⟨_, hleave, _, _⟩ := h.leave hcap hinput hr
      cases hleave.unique hturn
    · obtain ⟨s₁, hturn₁, _, h₁⟩ := h.turn hinput hr
      cases hturn₁.unique hturn
      exact ⟨_, h₁⟩

/-- The line editor keeps buffer and screen in step. If the input has a newline, it returns the line
that is typed before it, with its terminator; between any two turns the screen shows the buffer;
and nothing is written beyond the buffer. -/
theorem shellReadLine_edits (hcap : 1 ≤ cap) (buf : CharArray cap) (input : List ReadResult)
    (hnl : ∃ r ∈ input, r.IsNewline) :
    (∃ s, (shellReadLine buf input).Returns s ∧ s.len ≤ cap - 1 ∧ s.buf.cell s.len = some 0 ∧
      s.buf.text s.len = (editLine cap (typed input)).map some ∧
      (∃ echoed, s.out = echoed ++ [chr '\n'] ∧ (shown echoed).map some = s.buf.text s.len) ∧
      ∀ i, cap ≤ i → s.buf.cell i = buf.cell i) ∧
    ∀ s, Reaches Editor.turn { len := 0, buf, input, out := [] } s →
      (shown s.out).map some = s.buf.text s.len ∧ ∀ i, cap ≤ i → s.buf.cell i = buf.cell i := by
  constructor
  · obtain ⟨s, hs, h⟩ := exists_entered hcap (shows_nil buf input) hnl
    obtain ⟨echoed, hout, hshown⟩ := h.screen
    exact ⟨s, hs, h.fits, h.ends, h.text, ⟨echoed, hout, by rw [hshown, h.text]⟩, h.beyond⟩
  · intro s hs
    obtain ⟨line, h⟩ := hs.invariant (fun s => ∃ line, Shows buf line s)
      (fun _ _ ⟨_, h⟩ hturn => h.exists_again hcap hturn) ⟨[], shows_nil buf input⟩
    exact ⟨by rw [h.screen, h.text], h.beyond⟩

/-- A line with a character too much, a backspace on the way and a read that fails. -/
theorem shellReadLine_edits_four :
    ∃ s, (shellReadLine (.fresh 4) [⟨1, chr 'l'⟩, ⟨1, chr 'x'⟩, ⟨1, 127⟩, ⟨-1, 0⟩, ⟨1, chr 's'⟩,
      ⟨1, chr '-'⟩, ⟨1, chr 'a'⟩, ⟨1, chr '\n'⟩]).Returns s ∧ s.buf.cell s.len = some 0 ∧
      s.buf.text s.len = (bytes "ls-").map some := by
  obtain ⟨⟨s, hs, _, hend, htext, _⟩, _⟩ := shellReadLine_edits (by decide) (.fresh 4)
    [⟨1, chr 'l'⟩, ⟨1, chr 'x'⟩, ⟨1, 127⟩, ⟨-1, 0⟩, ⟨1, chr 's'⟩, ⟨1, chr '-'⟩, ⟨1, chr 'a'⟩,
      ⟨1, chr '\n'⟩] ⟨⟨1, chr '\n'⟩, by simp, by decide, rfl⟩
  exact ⟨s, hs, hend, htext.trans (by decide)⟩
