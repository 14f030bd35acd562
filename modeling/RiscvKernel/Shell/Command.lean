import Mathlib.Data.List.DropRight
import RiscvKernel.Shell.LineEditor

/-!
# The commands of the shell

`run_command` of the user program: leading spaces are skipped, most built-ins are recognised by the
rest of the line as a whole, and `echo` by its first four characters.

* `strEq_returns`, `strStartsWith_returns`, `skipSpaces_returns`: the functions on strings.
* `runCommand_returns`: the built-in that a line runs, and what it does.
* `runsOwnName_iff`: a built-in is run for its own name and for nothing else, except for words that
  go on after `echo` and names with spaces behind them.
* `shellRound_returns`: a round of the shell runs the line that has been typed.
-/

open ByteMemory Execution

/-! ### Definitions -/

/-- A turn of `while (*a && *b)`. -/
def strEqTurn (s : CharPtr × CharPtr) : Execution (Turn (CharPtr × CharPtr) Bool) :=
  if s.1.deref ≠ 0 ∧ s.2.deref ≠ 0 then
    if s.1.deref ≠ s.2.deref then pure (.leave false)
    else pure (.again (s.1.inc, s.2.inc))
  else pure (.leave (s.1.deref = 0 ∧ s.2.deref = 0))

/-- `str_eq`. -/
def strEq (a b : CharPtr) : Execution Bool := loop strEqTurn (a, b)

/-- A turn of `while (*prefix)`. -/
def strStartsWithTurn (s : CharPtr × CharPtr) : Execution (Turn (CharPtr × CharPtr) Bool) :=
  if s.2.deref ≠ 0 then
    if s.1.deref ≠ s.2.deref then pure (.leave false)
    else pure (.again (s.1.inc, s.2.inc))
  else pure (.leave true)

/-- `str_starts_with`. -/
def strStartsWith (s start : CharPtr) : Execution Bool := loop strStartsWithTurn (s, start)

/-- A turn of `while (*s == ' ')`. -/
def skipSpacesTurn (s : CharPtr) : Execution (Turn CharPtr CharPtr) :=
  if s.deref = chr ' ' then pure (.again s.inc) else pure (.leave s)

/-- `skip_spaces`. -/
def skipSpaces (s : CharPtr) : Execution CharPtr := loop skipSpacesTurn s

/-- The built-in commands. -/
inductive Builtin
  | help | echo | clear | yield | about | exit
  deriving DecidableEq

/-- What a command does, one system call after the other. -/
inductive Effect
  | putchar (c : Byte)
  | schedYield
  | exit (status : BitVec 32)

/-- A run of `run_command`: the built-in whose code has been run, if any, and the system calls. -/
structure Ran where
  executed : Option Builtin
  effects : List Effect

/-- `sys_print` as a list of system calls. -/
def printed (msg : CharPtr) : Execution (List Effect) := do
  let cs ← sysPrint msg
  pure (cs.map .putchar)

/-- `run_command`. Nothing comes after `sys_exit`, which does not return. -/
def runCommand (line : CharPtr) : Execution Ran := do
  let line ← skipSpaces line
  if line.deref = 0 then pure ⟨none, []⟩
  else if ← strEq line (lit "help") then do
    let msg ← printed (lit "Built-ins: help, echo, clear, yield, about, exit\n")
    pure ⟨some .help, msg⟩
  else if ← strStartsWith line (lit "echo") then do
    let line ← skipSpaces (line.add 4)
    let text ← printed line
    let newline ← printed (lit "\n")
    pure ⟨some .echo, text ++ newline⟩
  else if ← strEq line (lit "clear") then do
    let msg ← printed (lit "\x1b[2J\x1b[H")
    pure ⟨some .clear, msg⟩
  else if ← strEq line (lit "yield") then do
    let msg ← printed (lit "yielding CPU...\n")
    pure ⟨some .yield, msg ++ [.schedYield]⟩
  else if ← strEq line (lit "about") then do
    let msg ← printed (lit "GeminiOS shell running in user mode via execve().\n")
    pure ⟨some .about, msg⟩
  else if ← strEq line (lit "exit") then do
    let msg ← printed (lit "bye.\n")
    pure ⟨some .exit, msg ++ [.exit 0]⟩
  else do
    let msg ← printed (lit "unknown command: ")
    let text ← printed line
    let newline ← printed (lit "\n")
    pure ⟨none, msg ++ text ++ newline⟩

/-! ### Strings -/

variable {p q : CharPtr} {cs ds : List Byte}

theorem strEq_returns (hp : p.Holds cs) (hq : q.Holds ds) : (strEq p q).Returns (cs = ds) := by
  induction cs generalizing p q ds with
  | nil =>
    -- the first string has ended: they are equal if the second one has too
    refine Returns.leave ?_
    unfold strEqTurn
    rw [if_neg fun h => h.1 hp]
    refine returns_pure.mpr (congrArg Turn.leave (decide_eq_decide.mpr ?_))
    rw [and_iff_right (CharPtr.holds_nil.mp hp), hq.deref_eq_zero, eq_comm]
  | cons c cs ih =>
    cases ds with
    | nil =>
      refine Returns.leave ?_
      unfold strEqTurn
      rw [if_neg fun h => h.2 hq]
      refine returns_pure.mpr (congrArg Turn.leave (decide_eq_decide.mpr ?_))
      rw [and_iff_left (CharPtr.holds_nil.mp hq), hp.deref_eq_zero]
    | cons d ds =>
      obtain ⟨hc, hc0, hcs⟩ := hp
      obtain ⟨hd, hd0, hds⟩ := hq
      have hturn : strEqTurn (p, q) =
          if c ≠ d then pure (.leave false) else pure (.again (p.inc, q.inc)) := by
        unfold strEqTurn
        rw [hc, hd, if_pos ⟨hc0, hd0⟩]
      by_cases hcd : c = d
      · subst hcd
        rw [if_neg (not_not.mpr rfl)] at hturn
        refine Returns.again (hturn ▸ returns_pure.mpr rfl) ?_
        simpa [strEq] using ih hcs hds
      · rw [if_pos hcd] at hturn
        refine Returns.leave (hturn ▸ returns_pure.mpr ?_)
        simp [hcd]

theorem strStartsWith_returns (hp : p.Holds cs) (hq : q.Holds ds) :
    (strStartsWith p q).Returns (ds <+: cs) := by
  induction ds generalizing p q cs with
  | nil =>
    -- the prefix has been read to its end
    refine Returns.leave ?_
    unfold strStartsWithTurn
    rw [if_neg (not_not.mpr (CharPtr.holds_nil.mp hq))]
    simp
  | cons d ds ih =>
    obtain ⟨hd, hd0, hds⟩ := hq
    have hturn : strStartsWithTurn (p, q) =
        if p.deref ≠ d then pure (.leave false) else pure (.again (p.inc, q.inc)) := by
      unfold strStartsWithTurn
      rw [hd, if_pos hd0]
    cases cs with
    | nil =>
      -- the string ends before the prefix does, and its null is no character of the prefix
      have hne : p.deref ≠ d := fun h => hd0 (h.symm.trans hp)
      rw [if_pos hne] at hturn
      refine Returns.leave (hturn ▸ returns_pure.mpr ?_)
      simp
    | cons c cs =>
      obtain ⟨hc, hc0, hcs⟩ := hp
      rw [hc] at hturn
      by_cases hcd : c = d
      · subst hcd
        rw [if_neg (not_not.mpr rfl)] at hturn
        refine Returns.again (hturn ▸ returns_pure.mpr rfl) ?_
        simpa [strStartsWith] using ih hcs hds
      · rw [if_pos hcd] at hturn
        refine Returns.leave (hturn ▸ returns_pure.mpr ?_)
        simp [Ne.symm hcd]

theorem skipSpaces_returns (hp : p.Holds cs) :
    ∃ q, (skipSpaces p).Returns q ∧ q.Holds (cs.dropWhile (· = chr ' ')) := by
  induction cs generalizing p with
  | nil =>
    refine ⟨p, Returns.leave ?_, hp⟩
    unfold skipSpacesTurn
    rw [CharPtr.holds_nil.mp hp]
    exact returns_pure.mpr rfl
  | cons c cs ih =>
    by_cases hc : c = chr ' '
    · have hturn : (skipSpacesTurn p).Returns (.again p.inc) := by
        unfold skipSpacesTurn
        rw [if_pos (hp.1.trans hc)]
        exact returns_pure.mpr rfl
      obtain ⟨q, hq, hholds⟩ := ih hp.2.2
      refine ⟨q, hturn.again hq, ?_⟩
      rwa [List.dropWhile_cons_of_pos (by simpa using hc)]
    · refine ⟨p, Returns.leave ?_, ?_⟩
      · unfold skipSpacesTurn
        rw [if_neg (hp.1 ▸ hc)]
        exact returns_pure.mpr rfl
      · rwa [List.dropWhile_cons_of_neg (by simpa using hc)]

/-! ### The line -/

/-- The line without the spaces in front. -/
def body (cs : List Byte) : List Byte := cs.dropWhile (· = chr ' ')

/-- The first word of a line. -/
def firstWord (cs : List Byte) : List Byte := (body cs).takeWhile (· ≠ chr ' ')

/-- The line without the spaces in front and at the end. -/
def trimmed (cs : List Byte) : List Byte := (body cs).rdropWhile (· = chr ' ')

/-- The name of a built-in. -/
def Builtin.name : Builtin → List Byte
  | help => bytes "help"
  | echo => bytes "echo"
  | clear => bytes "clear"
  | yield => bytes "yield"
  | about => bytes "about"
  | exit => bytes "exit"

/-- The built-in that is run for a line without spaces in front. -/
def dispatch (cs : List Byte) : Option Builtin :=
  if cs = bytes "help" then some .help
  else if bytes "echo" <+: cs then some .echo
  else if cs = bytes "clear" then some .clear
  else if cs = bytes "yield" then some .yield
  else if cs = bytes "about" then some .about
  else if cs = bytes "exit" then some .exit
  else none

/-- Printing a text. -/
def puts (cs : List Byte) : List Effect := cs.map .putchar

/-- What a built-in does on a line without spaces in front. -/
def Builtin.effects (cs : List Byte) : Builtin → List Effect
  | help => puts (bytes "Built-ins: help, echo, clear, yield, about, exit\n")
  | echo => puts (body (cs.drop 4) ++ bytes "\n")
  | clear => puts (bytes "\x1b[2J\x1b[H")
  | yield => puts (bytes "yielding CPU...\n") ++ [.schedYield]
  | about => puts (bytes "GeminiOS shell running in user mode via execve().\n")
  | exit => puts (bytes "bye.\n") ++ [.exit 0]

/-- The message for a command that is not known. -/
def unknownCommand (cs : List Byte) : List Effect :=
  puts (bytes "unknown command: " ++ cs ++ bytes "\n")

/-- The run of `run_command` on a line without spaces in front. -/
def ran (cs : List Byte) : Ran where
  executed := dispatch cs
  effects :=
    if cs = [] then [] else ((dispatch cs).map (Builtin.effects cs)).getD (unknownCommand cs)

variable {b : Builtin}

theorem printed_returns (hp : p.Holds cs) : (printed p).Returns (puts cs) :=
  (returns_each hp).bind (returns_pure.mpr rfl)

/-- A message, and what is done then. -/
theorem returns_message {msg : String} {f : List Effect → Execution Ran} {r : Ran}
    (h : (bytes msg).all (· ≠ 0)) (hf : (f (puts (bytes msg))).Returns r) :
    (printed (lit msg) >>= f).Returns r := (printed_returns (holds_lit h)).bind hf

/-- A comparison with a literal, and what is done then. -/
theorem returns_if_strEq {m₁ m₂ : Execution Ran} {r : Ran} {name : String} (hp : p.Holds cs)
    (hname : (bytes name).all (· ≠ 0)) (h₁ : cs = bytes name → m₁.Returns r)
    (h₂ : cs ≠ bytes name → m₂.Returns r) :
    (do if ← strEq p (lit name) then m₁ else m₂).Returns r := by
  refine (strEq_returns hp (holds_lit hname)).bind ?_
  by_cases h : cs = bytes name
  · simpa only [h, decide_true, if_true] using h₁ h
  · simpa only [h, decide_false, Bool.false_eq_true, if_false] using h₂ h

/-- The two ways to recognise a built-in. -/
theorem dispatch_eq_some : dispatch cs = some b ↔
    if b = .echo then bytes "echo" <+: cs else cs = b.name := by
  constructor
  · intro h
    unfold dispatch at h
    split_ifs at h with h₁ h₂ h₃ h₄ h₅ h₆ <;> cases h
    · exact h₁
    · exact h₂
    · exact h₃
    · exact h₄
    · exact h₅
    · exact h₆
  · intro h
    cases b with
    | echo =>
      have hecho : bytes "echo" <+: cs := h
      have hhelp : cs ≠ bytes "help" := by
        rintro rfl
        exact absurd hecho (by decide)
      rw [dispatch, if_neg hhelp, if_pos hecho]
    | _ =>
      obtain rfl := h
      decide

theorem ran_of_some (hcs : cs ≠ []) (h : dispatch cs = some b) :
    ran cs = ⟨some b, b.effects cs⟩ := by
  rw [ran, if_neg hcs, h, Option.map_some, Option.getD_some]

theorem ran_of_none (hcs : cs ≠ []) (h : dispatch cs = none) :
    ran cs = ⟨none, unknownCommand cs⟩ := by
  rw [ran, if_neg hcs, h, Option.map_none, Option.getD_none]

theorem runCommand_returns (hp : p.Holds cs) : (runCommand p).Returns (ran (body cs)) := by
  obtain ⟨q, hskip, hq⟩ := skipSpaces_returns hp
  change q.Holds (body cs) at hq
  generalize body cs = ds at hq ⊢
  refine hskip.bind ?_
  by_cases hnil : ds = []
  · rw [if_pos (hq.deref_eq_zero.mpr hnil)]
    subst hnil
    exact returns_pure.mpr rfl
  rw [if_neg (mt hq.deref_eq_zero.mp hnil)]
  refine returns_if_strEq hq rfl (fun h => ?_) (fun hhelp => ?_)
  · rw [ran_of_some hnil (b := .help) (dispatch_eq_some.mpr h)]
    exact returns_message rfl (returns_pure.mpr rfl)
  -- `echo` is the one name that is only compared with the start of the line
  refine (strStartsWith_returns hq (holds_lit rfl)).bind ?_
  by_cases hecho : bytes "echo" <+: ds
  · rw [if_pos (by simpa using hecho), ran_of_some hnil (b := .echo) (dispatch_eq_some.mpr hecho)]
    obtain ⟨rest, rfl⟩ := hecho
    have hrest : (bytes "echo" ++ rest).drop 4 = rest := List.drop_left' rfl
    obtain ⟨q', hskip', hq'⟩ := skipSpaces_returns hq.append
    refine hskip'.bind ((printed_returns hq').bind
      (returns_message rfl (returns_pure.mpr ?_)))
    rw [Builtin.effects, hrest]
    simp only [puts, List.map_append, body]
  rw [if_neg (by simpa using hecho)]
  refine returns_if_strEq hq rfl (fun h => ?_) (fun hclear => ?_)
  · rw [ran_of_some hnil (b := .clear) (dispatch_eq_some.mpr h)]
    exact returns_message rfl (returns_pure.mpr rfl)
  refine returns_if_strEq hq rfl (fun h => ?_) (fun hyield => ?_)
  · rw [ran_of_some hnil (b := .yield) (dispatch_eq_some.mpr h)]
    exact returns_message rfl (returns_pure.mpr rfl)
  refine returns_if_strEq hq rfl (fun h => ?_) (fun habout => ?_)
  · rw [ran_of_some hnil (b := .about) (dispatch_eq_some.mpr h)]
    exact returns_message rfl (returns_pure.mpr rfl)
  refine returns_if_strEq hq rfl (fun h => ?_) (fun hexit => ?_)
  · rw [ran_of_some hnil (b := .exit) (dispatch_eq_some.mpr h)]
    exact returns_message rfl (returns_pure.mpr rfl)
  -- none of the six comparisons succeeded
  have hnone : dispatch ds = none := by
    rw [dispatch, if_neg hhelp, if_neg hecho, if_neg hclear, if_neg hyield, if_neg habout,
      if_neg hexit]
  rw [ran_of_none hnil hnone]
  refine returns_message rfl ((printed_returns hq).bind
    (returns_message rfl (returns_pure.mpr ?_)))
  simp only [unknownCommand, puts, List.map_append]

/-! ### Names -/

/-- `run_command` runs a built-in only if the first word of the line is its name; it runs it if the
line without spaces at both ends is its name; and a line that is not blank and whose first word is
no name prints that the command is not known. -/
def RunsOwnName (line : CharPtr) (cs : List Byte) : Prop :=
  ∃ r, (runCommand line).Returns r ∧
    (∀ b, r.executed = some b → firstWord cs = b.name) ∧
    (∀ b, trimmed cs = b.name → r.executed = some b ∧ r.effects = b.effects (body cs)) ∧
    (body cs ≠ [] → (∀ b : Builtin, firstWord cs ≠ b.name) →
      r.executed = none ∧ r.effects = unknownCommand (body cs))

theorem takeWhile_name : b.name.takeWhile (· ≠ chr ' ') = b.name := by
  cases b <;> decide

theorem name_ne_nil : b.name ≠ [] := by
  cases b <;> decide

/-- A built-in is run for its own name exactly if a first word that begins with `echo` is `echo`,
and the other names have no spaces behind them. -/
theorem runsOwnName_iff {line : CharPtr} (hline : line.Holds cs) :
    RunsOwnName line cs ↔ (bytes "echo" <+: body cs → firstWord cs = bytes "echo") ∧
      ∀ b : Builtin, b ≠ .echo → trimmed cs = b.name → body cs = b.name := by
  have hrun := runCommand_returns hline
  constructor
  · rintro ⟨r, hr, hfirst, htrim, _⟩
    obtain rfl := hr.unique hrun
    refine ⟨fun hecho => hfirst .echo (dispatch_eq_some.mpr hecho), fun b hb hcs => ?_⟩
    have hdispatch := dispatch_eq_some.mp (htrim b hcs).1
    rwa [if_neg hb] at hdispatch
  · rintro ⟨hecho, htrim⟩
    -- what is run has the first word as its name
    have hfirst : ∀ b, dispatch (body cs) = some b → firstWord cs = b.name := by
      intro b hb
      have hname := dispatch_eq_some.mp hb
      split_ifs at hname with hb'
      · rw [hb']
        exact hecho hname
      · rw [firstWord, hname, takeWhile_name]
    refine ⟨ran (body cs), hrun, hfirst, fun b hb => ?_, fun hnil hwords => ?_⟩
    · have hdispatch : dispatch (body cs) = some b := by
        refine dispatch_eq_some.mpr ?_
        split_ifs with hb'
        · -- `echo` and spaces begin with `echo`
          subst hb'
          have hprefix : trimmed cs <+: body cs := List.rdropWhile_prefix _ _
          rwa [hb] at hprefix
        · exact htrim b hb' hb
      have hnil : body cs ≠ [] := by
        intro h
        rw [trimmed, h] at hb
        exact name_ne_nil hb.symm
      refine ⟨hdispatch, ?_⟩
      rw [ran, if_neg hnil, hdispatch, Option.map_some, Option.getD_some]
    · have hdispatch : dispatch (body cs) = none :=
        Option.eq_none_iff_forall_ne_some.mpr fun b hb => hwords b (hfirst b hb)
      refine ⟨hdispatch, ?_⟩
      rw [ran, if_neg hnil, hdispatch, Option.map_none, Option.getD_none]

/-- A line with spaces around the words of `echo`. -/
theorem runsOwnName_echo_hi : RunsOwnName (lit "  echo hi ") (bytes "  echo hi ") :=
  (runsOwnName_iff (holds_lit rfl)).mpr ⟨by decide, fun b => by cases b <;> decide⟩

/-- A word that goes on after `echo` runs `echo`, and `help` with a space behind it is not known. -/
theorem not_runsOwnName : (lit "echox").Holds (bytes "echox") ∧
    ¬ RunsOwnName (lit "echox") (bytes "echox") ∧
    (lit "help ").Holds (bytes "help ") ∧ ¬ RunsOwnName (lit "help ") (bytes "help ") := by
  have hecho : (lit "echox").Holds (bytes "echox") := holds_lit rfl
  have hhelp : (lit "help ").Holds (bytes "help ") := holds_lit rfl
  refine ⟨hecho, ?_, hhelp, ?_⟩
  · rintro ⟨r, hr, hfirst, _⟩
    obtain rfl := hr.unique (runCommand_returns hecho)
    exact absurd (hfirst .echo (by decide)) (by decide)
  · rintro ⟨r, hr, _, htrim, _⟩
    obtain rfl := hr.unique (runCommand_returns hhelp)
    exact absurd (htrim .help (by decide)).1 (by decide)

/-! ### A round of the shell -/

/-- `INPUT_MAX`. -/
def inputMax : ℕ := 128

/-- A turn of the loop of `_start`: the prompt, a line, its command. What is returned is the state
of the line editor and the run of the command. -/
def shellRound (line : CharArray inputMax) (input : List ReadResult) :
    Execution (List Byte × Editor inputMax × Ran) := do
  let prompt ← sysPrint (lit "geminios> ")
  let s ← shellReadLine line input
  let r ← runCommand s.buf.ptr
  pure (prompt, s, r)

/-- A round runs the command of the line that has been typed. -/
theorem shellRound_returns (line : CharArray inputMax) (input : List ReadResult)
    (hnl : ∃ r ∈ input, r.IsNewline) :
    ∃ s, (shellRound line input).Returns
      (bytes "geminios> ", s, ran (body (editLine inputMax (typed input)))) := by
  obtain ⟨s, hs, h⟩ := exists_entered (by decide) (shows_nil line input) hnl
  refine ⟨s, (returns_each (holds_lit rfl)).bind (hs.bind (Returns.bind ?_
    (returns_pure.mpr rfl)))⟩
  exact runCommand_returns h.holds
