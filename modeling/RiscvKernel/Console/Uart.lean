import RiscvKernel.Console.Printf
import RiscvKernel.Lib.Simulation

/-!
# The polling driver of the UART

The kernel talks to the serial port through two registers that hold one character each, and finds
out about them by reading the line status register again and again. Meanwhile the controller goes
on by itself: it sends what it holds, and characters arrive whether the last one has been read or
not. The C code over the driver is a tree of its calls (`Code`).

* `UartStep`: a step of the driver or of the controller, in any order.
* `Console`: what the driver is for, a console on which a call is one action.
* `uart_run_iff`: the driver shows the behaviours of this console and no others.
* `uart_conveys`: what is sent is what was put, and what is got is what has arrived, in order; only
  what is overwritten before it is read is lost.
* `printf_sent`: from a format and its arguments to what is sent.
-/

namespace RiscvKernel

open ByteMemory Simulation

/-! ### The code over the driver -/

/-- C code that talks to the console: it has come to a result, or it calls `uart_putc` or
`uart_getc` and goes on. -/
inductive Code (α : Type)
  | done (a : α)
  | putc (c : Byte) (rest : Code α)
  | getc (rest : BitVec 32 → Code α)

namespace Code

/-- `uart_puts` on a string with the characters `cs`. -/
def puts {α : Type} (cs : List Byte) (rest : Code α) : Code α := cs.foldr .putc rest

/-- The code comes from `k` to `k'` if it is given the characters `ins`, and it puts `outs`. -/
inductive Talks {α : Type} : Code α → List Byte → List Byte → Code α → Prop
  | nil (k : Code α) : Talks k [] [] k
  | putc {rest k : Code α} {ins outs : List Byte} (c : Byte) (h : Talks rest ins outs k) :
    Talks (.putc c rest) ins (c :: outs) k
  | getc {rest : BitVec 32 → Code α} {k : Code α} {ins outs : List Byte} (c : Byte)
    (h : Talks (rest (c.setWidth 32)) ins outs k) : Talks (.getc rest) (c :: ins) outs k

end Code

/-! ### The controller -/

/-- The bit of `LSR` that says that the transmitter can take a character. -/
def uart0LsrEmptyMask : Byte := 0x20

/-- The bit of `LSR` that says that a character has been received. -/
def uart0LsrReadyMask : Byte := 0x01

/-- The state of the controller. -/
structure Uart where
  /-- The character in `THR` that has not been sent yet. -/
  thr : Option Byte
  /-- The character in `RHR` that has not been read yet. -/
  rhr : Option Byte
  /-- What has been sent. -/
  sent : List Byte

/-- The values that `LSR` can have. The other bits are of no concern to the driver. -/
def Uart.Shows (u : Uart) (lsr : Byte) : Prop :=
  (lsr &&& uart0LsrEmptyMask = 0 ↔ u.thr ≠ none) ∧ (lsr &&& uart0LsrReadyMask = 0 ↔ u.rhr = none)

/-! ### The driver -/

/-- Where control is. -/
inductive Point (α : Type)
  /-- In the C code, or in the loop of the call that it makes. -/
  | code (k : Code α)
  /-- Behind the loop of `uart_putc`. -/
  | store (c : Byte) (rest : Code α)
  /-- Behind the loop of `uart_getc`. -/
  | load (rest : BitVec 32 → Code α)

namespace Point

variable {α : Type}

/-- A turn of the loop that control is in: `while ((*UART0_LSR & MASK) == 0)`. -/
def polled (lsr : Byte) : Point α → Option (Point α)
  | .code (.putc c rest) =>
    some (if lsr &&& uart0LsrEmptyMask = 0 then .code (.putc c rest) else .store c rest)
  | .code (.getc rest) =>
    some (if lsr &&& uart0LsrReadyMask = 0 then .code (.getc rest) else .load rest)
  | _ => none

/-- The code, with the call that is being made. -/
def calling : Point α → Code α
  | .code k => k
  | .store c rest => .putc c rest
  | .load rest => .getc rest

end Point

/-- The driver and the controller. -/
structure Driver (α : Type) where
  point : Point α
  uart : Uart

/-- What happens between the driver and the controller. -/
inductive UartEvent
  | poll (lsr : Byte)
  | store
  | load
  | transmit
  | arrive (c : Byte)
  | overrun (c : Byte)

/-- A step of the driver or of the controller. -/
inductive UartStep {α : Type} : Driver α → UartEvent → Driver α → Prop
  | poll {d : Driver α} {lsr : Byte} {p : Point α} (hlsr : d.uart.Shows lsr)
    (hpoint : d.point.polled lsr = some p) : UartStep d (.poll lsr) { d with point := p }
  /-- A character that has not been sent yet is overwritten. -/
  | store {d : Driver α} {c : Byte} {rest : Code α} (hpoint : d.point = .store c rest) :
    UartStep d .store { point := .code rest, uart := { d.uart with thr := some c } }
  /-- The register reads as anything if nothing has been received. -/
  | load {d : Driver α} {rest : BitVec 32 → Code α} {c : Byte} (hpoint : d.point = .load rest)
    (hrhr : d.uart.rhr ≠ none → d.uart.rhr = some c) :
    UartStep d .load
      { point := .code (rest (c.setWidth 32)), uart := { d.uart with rhr := none } }
  | transmit {d : Driver α} {c : Byte} (hthr : d.uart.thr = some c) :
    UartStep d .transmit { d with uart := { d.uart with thr := none, sent := d.uart.sent ++ [c] } }
  | arrive {d : Driver α} (c : Byte) (hrhr : d.uart.rhr = none) :
    UartStep d (.arrive c) { d with uart := { d.uart with rhr := some c } }
  /-- A character that has not been read yet is overwritten. -/
  | overrun {d : Driver α} {b : Byte} (c : Byte) (hrhr : d.uart.rhr = some b) :
    UartStep d (.overrun c) { d with uart := { d.uart with rhr := some c } }

/-! ### The console -/

/-- A console: the code that uses it, what has been put on it, and the character that is waiting. -/
structure Console (α : Type) where
  code : Code α
  shown : List Byte
  waiting : Option Byte

/-- What is done with a console. -/
inductive Console.Action
  | put
  | get
  | arrive (c : Byte)
  | overrun (c : Byte)
  deriving DecidableEq

/-- An action on the console. -/
def Console.next {α : Type} (t : Console α) : Console.Action → Option (Console α)
  | .put => match t.code with
    | .putc c rest => some { t with code := rest, shown := t.shown ++ [c] }
    | _ => none
  | .get => match t.code, t.waiting with
    | .getc rest, some c => some { t with code := rest (c.setWidth 32), waiting := none }
    | _, _ => none
  | .arrive c => if t.waiting = none then some { t with waiting := some c } else none
  | .overrun c => if t.waiting = none then none else some { t with waiting := some c }

/-- The action of an event. Polling and sending are not seen. -/
def UartEvent.action : UartEvent → Option Console.Action
  | .poll _ => none
  | .store => some .put
  | .load => some .get
  | .transmit => none
  | .arrive c => some (.arrive c)
  | .overrun c => some (.overrun c)

/-- The characters that arrive. -/
def arrivals (bs : List Console.Action) : List Byte :=
  bs.filterMap fun
    | .arrive c => some c
    | .overrun c => some c
    | _ => none

/-- The number of characters that are overwritten before they are read. -/
def overruns (bs : List Console.Action) : ℕ :=
  bs.countP fun b => b matches .overrun _

namespace Driver

variable {α : Type}

/-- The console that the driver makes of the controller. -/
def console (d : Driver α) : Console α :=
  { code := d.point.calling, shown := d.uart.sent ++ d.uart.thr.toList, waiting := d.uart.rhr }

/-- Behind a loop the register is in the state that the loop was waiting for. -/
def Polled (d : Driver α) : Prop :=
  match d.point with
  | .code _ => True
  | .store _ _ => d.uart.thr = none
  | .load _ => d.uart.rhr ≠ none

/-- The driver is between two calls. -/
def Between (d : Driver α) : Prop := ∃ k, d.point = .code k

end Driver

section Simulation

variable {α : Type} {d d' : Driver α} {e : UartEvent} {es : List UartEvent}
  {b : Console.Action} {bs : List Console.Action} {t t' : Console α} {k k' : Code α}
  {c lsr : Byte} {cs ins outs : List Byte} {p : Point α}

/-! ### The actions of a console -/

theorem Console.next_put : t.next .put = some t' ↔
    ∃ c rest, t.code = .putc c rest ∧ t' = { t with code := rest, shown := t.shown ++ [c] } := by
  unfold Console.next
  cases t.code with
  | putc c rest => simp [eq_comm]
  | done a => simp
  | getc rest => simp

theorem Console.next_get : t.next .get = some t' ↔ ∃ c rest, t.code = .getc rest ∧
    t.waiting = some c ∧ t' = { t with code := rest (c.setWidth 32), waiting := none } := by
  unfold Console.next
  cases t.code with
  | getc rest => cases t.waiting <;> simp [eq_comm]
  | done a => simp
  | putc c rest => simp

theorem Console.next_arrive :
    t.next (.arrive c) = some t' ↔ t.waiting = none ∧ t' = { t with waiting := some c } := by
  unfold Console.next
  cases t.waiting <;> simp [eq_comm]

theorem Console.next_overrun : t.next (.overrun c) = some t' ↔
    ∃ x, t.waiting = some x ∧ t' = { t with waiting := some c } := by
  unfold Console.next
  cases t.waiting <;> simp [eq_comm]

/-! ### One step -/

/-- A turn of a loop leaves the call as it is. -/
theorem Point.calling_polled (h : p.polled lsr = some p') : p'.calling = p.calling := by
  cases p with
  | code k =>
    cases k with
    | done a => cases h
    | putc c rest =>
      obtain rfl := Option.some.inj h
      split_ifs <;> rfl
    | getc rest =>
      obtain rfl := Option.some.inj h
      split_ifs <;> rfl
  | store c rest => cases h
  | load rest => cases h

/-- The driver leaves a loop only when the status register says so. -/
theorem Driver.polled_poll (hlsr : d.uart.Shows lsr) (h : d.point.polled lsr = some p) :
    Driver.Polled { d with point := p } := by
  obtain ⟨point, uart⟩ := d
  cases point with
  | code k =>
    cases k with
    | done a => cases h
    | putc c rest =>
      obtain rfl := Option.some.inj h
      by_cases hwait : lsr &&& uart0LsrEmptyMask = 0
      · rw [if_pos hwait]
        -- the loop goes round again
        trivial
      · -- the loop has seen the bit, so the register is empty
        rw [if_neg hwait]
        exact not_not.mp (mt hlsr.1.mpr hwait)
    | getc rest =>
      obtain rfl := Option.some.inj h
      by_cases hwait : lsr &&& uart0LsrReadyMask = 0
      · rw [if_pos hwait]
        -- the loop goes round again
        trivial
      · -- the loop has seen the bit, so there is a character
        rw [if_neg hwait]
        exact mt hlsr.2.mpr hwait
  | store c rest => cases h
  | load rest => cases h

/-- What the controller does by itself does not take back what a loop has waited for. -/
theorem Driver.Polled.uart {u : Uart} (h : d.Polled) (hthr : d.uart.thr = none → u.thr = none)
    (hrhr : d.uart.rhr ≠ none → u.rhr ≠ none) : Driver.Polled { d with uart := u } := by
  obtain ⟨point, uart⟩ := d
  cases point with
  | code k => trivial
  | store c rest => exact hthr h
  | load rest => exact hrhr h

theorem UartStep.polled (h : UartStep d e d') (hd : d.Polled) : d'.Polled := by
  cases h with
  | poll hlsr hpoint => exact Driver.polled_poll hlsr hpoint
  | store => trivial
  | load => trivial
  | transmit => exact hd.uart (fun _ => rfl) id
  | arrive c => exact hd.uart id fun _ => Option.some_ne_none c
  | overrun c => exact hd.uart id fun _ => Option.some_ne_none c

/-- The driver is a console on which a call is one action. -/
theorem uart_simulates :
    Simulates (UartStep : Driver α → _ → _ → Prop) Console.next UartEvent.action Driver.Polled
      Driver.console where
  keeps hd hstep := hstep.polled hd
  hidden := by
    intro d e d' hd hstep haction
    cases hstep with
    | poll hlsr hpoint => exact congrArg (Console.mk · _ _) (Point.calling_polled hpoint)
    | transmit hthr => simp [Driver.console, hthr]
    | store => cases haction
    | load => cases haction
    | arrive => cases haction
    | overrun => cases haction
  visible := by
    intro d e d' b hd hstep haction
    obtain ⟨point, uart⟩ := d
    cases hstep with
    | poll => cases haction
    | transmit => cases haction
    | store hpoint =>
      -- the holding register is empty, so nothing is overwritten
      obtain rfl := Option.some.inj haction
      obtain rfl := hpoint
      have hthr : uart.thr = none := hd
      refine Console.next_put.mpr ⟨_, _, rfl, ?_⟩
      simp [Driver.console, Point.calling, hthr]
    | load hpoint hrhr =>
      obtain rfl := Option.some.inj haction
      obtain rfl := hpoint
      -- a character is there, so that nothing else is read
      exact Console.next_get.mpr ⟨_, _, rfl, hrhr hd, rfl⟩
    | arrive c hrhr =>
      obtain rfl := Option.some.inj haction
      exact Console.next_arrive.mpr ⟨hrhr, rfl⟩
    | overrun c hrhr =>
      obtain rfl := Option.some.inj haction
      exact Console.next_overrun.mpr ⟨_, hrhr, rfl⟩

/-! ### Following the console -/

/-- The status register can always be read. -/
theorem Uart.exists_shows (u : Uart) : ∃ lsr, u.Shows lsr := by
  refine ⟨(if u.thr = none then uart0LsrEmptyMask else 0)
    ||| (if u.rhr = none then 0 else uart0LsrReadyMask), ?_⟩
  by_cases hthr : u.thr = none <;> by_cases hrhr : u.rhr = none <;>
    simp [Uart.Shows, hthr, hrhr, uart0LsrEmptyMask, uart0LsrReadyMask]

/-- `uart_putc` returns if the controller sends. -/
theorem exists_put {rest : Code α} (hd : d.Polled) (hcall : d.point.calling = .putc c rest) :
    ∃ es d', Path UartStep d es d' ∧ es.filterMap UartEvent.action = [.put] ∧
      d'.point = .code rest := by
  obtain ⟨point, uart⟩ := d
  cases point with
  | code k =>
    obtain rfl : k = .putc c rest := hcall
    -- the run from an empty holding register
    have hempty : ∀ u : Uart, u.thr = none → ∃ es d',
        Path UartStep ⟨.code (.putc c rest), u⟩ es d' ∧
          es.filterMap UartEvent.action = [.put] ∧ d'.point = .code rest := by
      intro u hthr
      obtain ⟨lsr, hlsr⟩ := u.exists_shows
      have hgo : (Point.code (.putc c rest)).polled lsr = some (.store c rest) := by
        rw [Point.polled, if_neg (mt hlsr.1.mp (not_not.mpr hthr))]
      exact ⟨[.poll lsr, .store], _, .cons (.poll hlsr hgo) (.single (.store rfl)), rfl, rfl⟩
    cases hthr : uart.thr with
    | none => exact hempty uart hthr
    -- what is held is sent first
    | some x =>
      obtain ⟨es, d', hpath, hes, hpoint⟩ := hempty { uart with thr := none, sent := _ } rfl
      exact ⟨_, d', .cons (.transmit hthr) hpath, hes, hpoint⟩
  | store c' rest' =>
    cases hcall
    exact ⟨[.store], _, .single (.store rfl), rfl, rfl⟩
  | load rest' => cases hcall

/-- From between two calls, the driver and the controller can bring about every action of the
console. -/
theorem uart_answers : Answers (UartStep : Driver α → _ → _ → Prop) Console.next
    UartEvent.action (fun d => d.Polled ∧ d.Between) Driver.console where
  answer := by
    rintro d b t ⟨hd, k, hk⟩ hnext
    -- it is enough to find a run with this action that ends between two calls
    suffices hrun : ∃ es d', Path UartStep d es d' ∧
        es.filterMap UartEvent.action = [b] ∧ d'.Between by
      obtain ⟨es, d', hpath, hes, hbetween⟩ := hrun
      have hplay := uart_simulates.path hd hpath
      rw [hes, play_cons, hnext] at hplay
      exact ⟨es, d', hpath, hes, ⟨uart_simulates.inv_of_path hd hpath, hbetween⟩,
        (Option.some.inj hplay).symm⟩
    cases b with
    -- the calls are made with one turn of their loops, the rest is done by the controller
    | put =>
      obtain ⟨c, rest, hput, -⟩ := Console.next_put.mp hnext
      obtain ⟨es, d', hpath, hes, hpoint⟩ := exists_put hd hput
      exact ⟨es, d', hpath, hes, rest, hpoint⟩
    | get =>
      obtain ⟨c, rest, hget, hwaiting, -⟩ := Console.next_get.mp hnext
      obtain rfl : k = .getc rest := by rwa [Driver.console, hk] at hget
      obtain ⟨lsr, hlsr⟩ := d.uart.exists_shows
      have hrhr : d.uart.rhr = some c := hwaiting
      have hgo : d.point.polled lsr = some (.load rest) := by
        rw [hk, Point.polled, if_neg (mt hlsr.2.mp (by simp [hrhr]))]
      exact ⟨[.poll lsr, .load], _,
        .cons (.poll hlsr hgo) (.single (.load rfl fun _ => hrhr)), rfl, _, rfl⟩
    | arrive c =>
      have hrhr := (Console.next_arrive.mp hnext).1
      exact ⟨[.arrive c], _, .single (.arrive c hrhr), rfl, k, hk⟩
    | overrun c =>
      obtain ⟨x, hrhr, -⟩ := Console.next_overrun.mp hnext
      exact ⟨[.overrun c], _, .single (.overrun c hrhr), rfl, k, hk⟩

/-! ### What is conveyed -/

@[simp]
theorem arrivals_cons_put : arrivals (.put :: bs) = arrivals bs := rfl

@[simp]
theorem arrivals_cons_get : arrivals (.get :: bs) = arrivals bs := rfl

@[simp]
theorem arrivals_cons_arrive : arrivals (.arrive c :: bs) = c :: arrivals bs := rfl

@[simp]
theorem arrivals_cons_overrun : arrivals (.overrun c :: bs) = c :: arrivals bs := rfl

@[simp]
theorem overruns_cons_get : overruns (.get :: bs) = overruns bs :=
  List.countP_cons_of_neg (by decide)

@[simp]
theorem overruns_cons_overrun : overruns (.overrun c :: bs) = overruns bs + 1 :=
  List.countP_cons_of_pos rfl

/-- What a console conveys. -/
structure Conveyed (t : Console α) (bs : List Console.Action) (t' : Console α)
    (ins outs : List Byte) : Prop where
  talks : t.code.Talks ins outs t'.code
  shown : t'.shown = t.shown ++ outs
  received : (ins ++ t'.waiting.toList).Sublist (t.waiting.toList ++ arrivals bs)
  lost : (ins ++ t'.waiting.toList).length + overruns bs
    = (t.waiting.toList ++ arrivals bs).length

theorem exists_conveyed (h : play Console.next t bs = some t') :
    ∃ ins outs, Conveyed t bs t' ins outs := by
  induction bs generalizing t with
  | nil =>
    obtain rfl := Option.some.inj h
    exact ⟨[], [], .nil _, (List.append_nil _).symm, by simp [arrivals],
      by simp [arrivals, overruns]⟩
  | cons b bs ih =>
    obtain ⟨t₁, hfirst, hrest⟩ := play_cons_eq_some.mp h
    obtain ⟨ins, outs, htalks, hshown, hreceived, hlost⟩ := ih hrest
    cases b with
    | put =>
      -- the character is the first that is put
      obtain ⟨c, rest, hcode, rfl⟩ := Console.next_put.mp hfirst
      refine ⟨ins, c :: outs, hcode ▸ .putc c htalks, ?_, hreceived, hlost⟩
      rw [hshown, List.append_assoc, List.singleton_append]
    | get =>
      -- the character that was waiting is the first that is got
      obtain ⟨c, rest, hcode, hwaiting, rfl⟩ := Console.next_get.mp hfirst
      refine ⟨c :: ins, outs, hcode ▸ .getc c htalks, hshown, ?_, ?_⟩
      · rw [hwaiting]
        exact hreceived.cons_cons c
      · simp only [hwaiting, overruns_cons_get, arrivals_cons_get, Option.toList_some,
          Option.toList_none, List.cons_append, List.nil_append, List.length_cons] at hlost ⊢
        omega
    | arrive c =>
      -- nothing was waiting, so nothing is lost
      obtain ⟨hwaiting, rfl⟩ := Console.next_arrive.mp hfirst
      refine ⟨ins, outs, htalks, hshown, ?_, ?_⟩
      · rw [hwaiting]
        exact hreceived
      · rw [hwaiting]
        exact hlost
    | overrun c =>
      obtain ⟨x, hwaiting, rfl⟩ := Console.next_overrun.mp hfirst
      refine ⟨ins, outs, htalks, hshown, ?_, ?_⟩
      · -- the character that was waiting is lost
        rw [hwaiting]
        exact hreceived.cons x
      · simp only [hwaiting, overruns_cons_overrun, arrivals_cons_overrun, Option.toList_some,
          List.cons_append, List.nil_append, List.length_cons] at hlost ⊢
        omega

/-- Code that only prints has printed a part of its text. -/
theorem Code.talks_puts {a : α} (h : (Code.puts cs (.done a)).Talks ins outs k') :
    ∃ rest, cs = outs ++ rest ∧ k' = .puts rest (.done a) := by
  induction cs generalizing ins outs with
  | nil =>
    cases h
    exact ⟨[], rfl, rfl⟩
  | cons c cs ih =>
    cases h with
    | nil => exact ⟨c :: cs, rfl, rfl⟩
    | putc _ h =>
      obtain ⟨rest, rfl, hk'⟩ := ih h
      exact ⟨rest, rfl, hk'⟩

/-- The rest of a text is printed if the controller sends, whether anything arrives or not. -/
theorem exists_sent {a : α} (hd : d.Polled) (hcall : d.point.calling = .puts cs (.done a)) :
    ∃ es d', Path UartStep d es d' ∧ arrivals (es.filterMap UartEvent.action) = [] ∧
      d'.point = .code (.done a) ∧ d'.uart.thr = none ∧
      d'.uart.sent = d.uart.sent ++ d.uart.thr.toList ++ cs := by
  induction cs generalizing d with
  | nil =>
    obtain ⟨point, uart⟩ := d
    cases point with
    | code k =>
      obtain rfl : k = .done a := hcall
      cases hthr : uart.thr with
      | none => exact ⟨[], _, .nil _, rfl, rfl, hthr, by simp⟩
      | some x => exact ⟨[.transmit], _, .single (.transmit hthr), rfl, rfl, rfl, by simp⟩
    | store c rest => cases hcall
    | load rest => cases hcall
  | cons c cs ih =>
    obtain ⟨es, d₁, hpath, hes, hpoint⟩ := exists_put hd hcall
    have hd₁ := uart_simulates.inv_of_path hd hpath
    obtain ⟨es', d', hpath', harrivals, hdone, hthr, hsent⟩ :=
      ih hd₁ (congrArg Point.calling hpoint)
    -- the character put is the one that the console shows
    have hplay := uart_simulates.path hd hpath
    rw [hes, play_cons_eq_some] at hplay
    obtain ⟨t, hput, ht⟩ := hplay
    obtain rfl := Option.some.inj ht
    obtain ⟨c', rest, hcode, heq⟩ := Console.next_put.mp hput
    obtain ⟨rfl, -⟩ := Code.putc.inj (hcall.symm.trans hcode)
    have hshown : d₁.uart.sent ++ d₁.uart.thr.toList = d.uart.sent ++ d.uart.thr.toList ++ [c] :=
      congrArg Console.shown heq
    refine ⟨es ++ es', d', hpath.append hpath', ?_, hdone, hthr, ?_⟩
    · rw [List.filterMap_append, hes]
      exact harrivals
    · rw [hsent, hshown, List.append_assoc _ [c], List.singleton_append]

/-! ### The driver -/

/-- The driver on the controller, with any interleaving of their steps, does what the code does on a
console on which every call is one action, and it can do all of that. -/
theorem uart_run_iff (k : Code α) (u : Uart) (bs : List Console.Action) (t : Console α) :
    (∃ es d', Path UartStep ⟨.code k, u⟩ es d' ∧ es.filterMap UartEvent.action = bs ∧
      d'.console = t) ↔
    play Console.next (Driver.console ⟨.code k, u⟩) bs = some t := by
  have hd : Driver.Polled ⟨.code k, u⟩ := trivial
  constructor
  · rintro ⟨es, d', hpath, rfl, rfl⟩
    exact uart_simulates.path hd hpath
  · intro hplay
    obtain ⟨es, d', hpath, hes, -, ht⟩ := uart_answers.play ⟨hd, k, rfl⟩ hplay
    exact ⟨es, d', hpath, hes, ht⟩

/-- No character that is put is lost, repeated or moved, and the characters that are got are those
that have arrived, less the ones that were overwritten before they were read. -/
theorem uart_conveys {u : Uart} (h : Path UartStep ⟨.code k, u⟩ es d') :
    ∃ ins outs, k.Talks ins outs d'.point.calling ∧
      d'.uart.sent ++ d'.uart.thr.toList = u.sent ++ u.thr.toList ++ outs ∧
      (ins ++ d'.uart.rhr.toList).Sublist
        (u.rhr.toList ++ arrivals (es.filterMap UartEvent.action)) ∧
      (ins ++ d'.uart.rhr.toList).length + overruns (es.filterMap UartEvent.action)
        = (u.rhr.toList ++ arrivals (es.filterMap UartEvent.action)).length := by
  have hd : Driver.Polled ⟨.code k, u⟩ := trivial
  obtain ⟨ins, outs, hconveyed⟩ := exists_conveyed (uart_simulates.path hd h)
  exact ⟨ins, outs, hconveyed.talks, hconveyed.shown, hconveyed.received, hconveyed.lost⟩

end Simulation

/-- An echo of the second of two characters, the first of which is overwritten. -/
theorem exists_uart_conveys : ∃ (k : Code Unit) (u : Uart) (es : List UartEvent)
    (d' : Driver Unit), Path UartStep ⟨.code k, u⟩ es d' ∧ d'.point = .code (.done ()) ∧
    arrivals (es.filterMap UartEvent.action) = [97, 98] ∧
    ∃ ins outs, k.Talks ins outs d'.point.calling ∧
      d'.uart.sent ++ d'.uart.thr.toList = u.sent ++ u.thr.toList ++ outs ∧
      (ins ++ d'.uart.rhr.toList).Sublist
        (u.rhr.toList ++ arrivals (es.filterMap UartEvent.action)) ∧
      (ins ++ d'.uart.rhr.toList).length + overruns (es.filterMap UartEvent.action)
        = (u.rhr.toList ++ arrivals (es.filterMap UartEvent.action)).length := by
  let k : Code Unit := .putc 62 (.getc fun v => .putc (v.setWidth 8) (.done ()))
  -- `>` is put, `a` arrives and is overwritten by `b` while it is sent, and `b` is echoed
  have hpath : Path UartStep ⟨.code k, ⟨none, none, []⟩⟩ [.poll 0x60, .store, .arrive 97,
      .transmit, .overrun 98, .poll 0x61, .load, .poll 0x60, .store]
      ⟨.code (.done ()), ⟨some 98, none, [62]⟩⟩ :=
    .cons (.poll (by simp [Uart.Shows, uart0LsrEmptyMask, uart0LsrReadyMask]) rfl) <|
    .cons (.store rfl) <| .cons (.arrive 97 rfl) <| .cons (.transmit rfl) <|
    .cons (.overrun 98 rfl) <|
    .cons (.poll (by simp [Uart.Shows, uart0LsrEmptyMask, uart0LsrReadyMask]) rfl) <|
    .cons (.load rfl fun _ => rfl) <|
    .cons (.poll (by simp [Uart.Shows, uart0LsrEmptyMask, uart0LsrReadyMask]) rfl) <|
    .single (.store rfl)
  exact ⟨k, _, _, _, hpath, rfl, rfl, uart_conveys hpath⟩

/-! ### printf on the line -/

/-- What `printf` makes of a format is sent, in order and completely: at each moment a part of it
has been put, and the rest can follow. -/
theorem printf_sent {fmt : CharPtr} {cs : List Byte} {args : List Arg} (hfmt : fmt.Holds cs)
    (hargs : List.Forall₂ Accepts (conversions (items cs)) args) (heven : Even (trailing cs)) :
    ∃ s, (printf fmt args).Returns s ∧ Prints (items cs) args s.out ∧
      ∀ (u : Uart) (es : List UartEvent) (d : Driver Unit),
        Path UartStep ⟨.code (.puts s.out (.done ())), u⟩ es d →
        ∃ put rest, s.out = put ++ rest ∧
          d.uart.sent ++ d.uart.thr.toList = u.sent ++ u.thr.toList ++ put ∧
          ∃ es' d', Path UartStep d es' d' ∧ arrivals (es'.filterMap UartEvent.action) = [] ∧
            d'.point = .code (.done ()) ∧ d'.uart.thr = none ∧
            d'.uart.sent = u.sent ++ u.thr.toList ++ s.out := by
  have hfollows : Follows fmt cs args [] := follows_of_even hfmt hargs heven
  obtain ⟨s, hs, hprints, -⟩ := hfollows
  rw [List.append_nil] at hs
  refine ⟨s, hs, hprints, fun u es d hpath => ?_⟩
  -- the text is handed to `uart_putc` one character at a time
  have hstart : Driver.Polled (⟨.code (.puts s.out (.done ())), u⟩ : Driver Unit) := trivial
  obtain ⟨ins, put, hconveyed⟩ := exists_conveyed (uart_simulates.path hstart hpath)
  obtain ⟨rest, hout, hcall⟩ := Code.talks_puts hconveyed.talks
  obtain ⟨es', d', hpath', harrivals, hdone, hthr, hsent⟩ :=
    exists_sent (uart_simulates.inv_of_path hstart hpath) hcall
  have hshown : d.uart.sent ++ d.uart.thr.toList = u.sent ++ u.thr.toList ++ put :=
    hconveyed.shown
  refine ⟨put, rest, hout, hshown, es', d', hpath', harrivals, hdone, hthr, ?_⟩
  rw [hsent, hshown, hout, List.append_assoc _ put]

/-- The line that `task_exit` prints before it frees the page table, with 7 pages free. -/
theorem exists_printf_sent : ∃ (fmt : CharPtr) (cs : List Byte) (args : List Arg),
    fmt.Holds cs ∧ cs = bytes "[KERNEL] Before reclamation, free pages: %d\n" ∧
    args = [.int 7] ∧
    ∃ s, (printf fmt args).Returns s ∧ Prints (items cs) args s.out ∧
      ∀ (u : Uart) (es : List UartEvent) (d : Driver Unit),
        Path UartStep ⟨.code (.puts s.out (.done ())), u⟩ es d →
        ∃ put rest, s.out = put ++ rest ∧
          d.uart.sent ++ d.uart.thr.toList = u.sent ++ u.thr.toList ++ put ∧
          ∃ es' d', Path UartStep d es' d' ∧ arrivals (es'.filterMap UartEvent.action) = [] ∧
            d'.point = .code (.done ()) ∧ d'.uart.thr = none ∧
            d'.uart.sent = u.sent ++ u.thr.toList ++ s.out := by
  have hfmt := holds_lit (s := "[KERNEL] Before reclamation, free pages: %d\n") (by decide +kernel)
  have hconversions : conversions (items (bytes "[KERNEL] Before reclamation, free pages: %d\n"))
      = [100#8] := by decide +kernel
  refine ⟨_, _, [.int 7], hfmt, rfl, rfl, printf_sent hfmt ?_ (by decide +kernel)⟩
  rw [hconversions]
  exact .cons ⟨_, .dec 7⟩ .nil

end RiscvKernel
