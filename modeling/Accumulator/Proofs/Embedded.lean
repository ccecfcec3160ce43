import Accumulator.Embedded
import Accumulator.Proofs.Machine.Loading

/-!
# Embedded machines are machines

An embedded machine answers every request as the machine inside it does, and that machine becomes
what the plain operations make of it. A load is the loading of the program followed by a restart; a
load that is refused changes nothing. The mark for a halt is redundant: it can be read off the
requests made so far, whose last one that a run, a restart or a successful load has to be a run
that ended on a halt.

## Implementation notes

Where a build with checks stops at a sum of a source text, a refusal stands for the stop. The
machine is not touched before the whole text is assembled.
-/

namespace Accumulator

open Assembly (Overflow)

namespace Embedded

/-- What a host may ask of an embedded machine. -/
inductive Request
  | restart
  | run (budget : Nat)
  | write (address : UInt16) (value : UInt8)
  | loadBytes (program : List UInt8)
  | loadSource (source : Text)
  deriving DecidableEq, Repr

/-- What a host gets back. -/
inductive Reply
  | done
  /-- A run ended after a number of instructions. -/
  | executed (count : Nat)
  /-- A run ended at a fault. -/
  | faulted (fault : Fault)
  | outOfBounds (error : OutOfBounds)
  /-- A source text was loaded as a program of a size. -/
  | loaded (size : Nat)
  /-- A program was not loaded. -/
  | refused (error : SourceError)
  deriving DecidableEq, Repr

/-- The embedded machine after a request, and the reply. -/
def serve (overflow : Overflow) (e : Embedded) : Request → Embedded × Reply
  | .restart => (e.restart, .done)
  | .run budget =>
      match e.run budget with
      | (next, .ok count) => (next, .executed count)
      | (next, .error fault) => (next, .faulted fault)
  | .write address value =>
      match e.write address value with
      | .ok next => (next, .done)
      | .error problem => (e, .outOfBounds problem)
  | .loadBytes program =>
      match e.loadBytes program with
      | .ok next => (next, .done)
      | .error problem => (e, .refused (.load problem))
  | .loadSource source =>
      match e.loadSource source overflow with
      | .ok (next, size) => (next, .loaded size)
      | .error problem => (e, .refused problem)

/-- The embedded machine after several requests. -/
def serveAll (overflow : Overflow) (e : Embedded) (requests : List Request) : Embedded :=
  requests.foldl (fun e request => (e.serve overflow request).1) e

end Embedded

namespace Machine

open Embedded

/-- The machine after a request, and the reply, with nothing but the machine's own operations. -/
def serve (overflow : Overflow) (m : Machine) : Request → Machine × Reply
  | .restart => (m.restart, .done)
  | .run budget =>
      match m.run budget with
      | (next, .ok report) => (next, .executed report.executed)
      | (next, .error fault) => (next, .faulted fault)
  | .write address value =>
      match m.write address value with
      | .ok next => (next, .done)
      | .error problem => (m, .outOfBounds problem)
  | .loadBytes program =>
      match m.loadProgram program with
      | .ok loaded => (loaded.restart, .done)
      | .error problem => (m, .refused (.load problem))
  | .loadSource source =>
      match assemble source m.layout.heapStart overflow with
      | .error problem => (m, .refused (.assembly problem))
      | .ok program =>
          match m.loadProgram program with
          | .ok loaded => (loaded.restart, .loaded program.length)
          | .error problem => (m, .refused (.load problem))

/-- The machine after several requests. -/
def serveAll (overflow : Overflow) (m : Machine) (requests : List Request) : Machine :=
  requests.foldl (fun m request => (m.serve overflow request).1) m

variable {layout : Layout} {m m' : Machine} {program : List UInt8}

/-- A machine starts over with a program: its registers are set up, the program is in place, and the
rest of memory and the cycle count are those of the machine before. -/
structure StartsOver (m : Machine) (program : List UInt8) (m' : Machine) : Prop where
  registers : m'.registers = .start m.layout.heapStart m.layout.stackStart
  lastInstruction : m'.lastInstruction = none
  layout_eq : m'.layout = m.layout
  counter : m'.counter = m.counter
  inside : ∀ k < program.length,
    m'.memory.at? (m.layout.heapStart.toNat + k) = program[k]?
  outside : ∀ cell, cell < m.layout.heapStart.toNat ∨
      m.layout.heapStart.toNat + program.length ≤ cell →
    m'.memory.at? cell = m.memory.at? cell

theorem startsOver_of_loadProgram {loaded : Machine} (h : m.loadProgram program = .ok loaded) :
    m.StartsOver program loaded.restart := by
  have hinside : ∀ k < program.length,
      loaded.memory.at? (m.layout.heapStart.toNat + k) = program[k]? :=
    fun _ => at?_of_loadProgram h
  obtain ⟨memory, hmemory, rfl⟩ := exists_of_map_ok h
  refine ⟨rfl, rfl, rfl, rfl, hinside, ?_⟩
  intro cell hcell
  obtain rfl := eq_putAll_of_load hmemory
  refine (Memory.at?_putAll ..).trans (if_neg ?_)
  omega

/-! ## Runs that end on a halt -/

/-- Paths of one length from a machine are the same. -/
theorem Path.unique {instructions others : List Instruction} {last : Machine}
    (h : m.Path instructions m') (h' : m.Path others last)
    (hlength : instructions.length = others.length) : instructions = others := by
  induction h generalizing others with
  | nil m => exact (List.length_eq_zero_iff.mp hlength.symm).symm
  | cons step path ih =>
      cases h' with
      | nil => cases hlength
      | cons step' path' =>
          rw [step, Prod.mk.injEq, Except.ok.injEq] at step'
          obtain ⟨rfl, rfl⟩ := step'
          rw [ih path' (Nat.succ.inj hlength)]

/-- A run reports a halt exactly if the instructions that it executed end with one. -/
theorem halted_run_iff {budget : Nat} {report : Report} (h : (m.run budget).2 = .ok report) :
    report.halted = true ↔
      ∃ instructions, m.Path (instructions ++ [.halt]) (m.run budget).1 ∧
        report.executed = (instructions ++ [.halt]).length := by
  obtain ⟨instructions, hpath, hends⟩ := m.exists_path_run budget
  rw [h] at hends
  cases hends with
  | exhausted length running =>
      refine iff_of_false Bool.false_ne_true ?_
      rintro ⟨before, hbefore, hlength⟩
      rw [hpath.unique hbefore hlength] at running
      exact running (List.mem_append_right before (List.mem_singleton_self _))
  | halted length eq running => exact iff_of_true rfl ⟨_, eq ▸ hpath, congrArg List.length eq⟩

/-! ## Requests and replies -/

/-- A request with its reply and the machines before and after it. -/
structure Exchange where
  before : Machine
  request : Request
  after : Machine
  reply : Reply

/-- The exchange that a request is part of. -/
def exchange (overflow : Overflow) (m : Machine) (request : Request) : Exchange :=
  ⟨m, request, (m.serve overflow request).1, (m.serve overflow request).2⟩

/-- The exchanges of several requests. -/
def exchanges (overflow : Overflow) (m : Machine) : List Request → List Exchange
  | [] => []
  | request :: rest =>
      m.exchange overflow request :: (m.serve overflow request).1.exchanges overflow rest

/-- A run, a restart or a load that succeeded. -/
def Exchange.decisive (x : Exchange) : Bool :=
  match x.request, x.reply with
  | .restart, _ | .run _, _ => true
  | .loadBytes _, .done | .loadSource _, .loaded _ => true
  | _, _ => false

/-- A run that did not fault and whose last instruction was a halt. -/
structure Exchange.EndsOnHalt (x : Exchange) : Prop where
  run : ∃ budget, x.request = .run budget
  path : ∃ instructions, x.before.Path (instructions ++ [.halt]) x.after ∧
    x.reply = .executed (instructions ++ [.halt]).length

end Machine

namespace Embedded

open Machine

variable {overflow : Overflow} {layout : Layout} {e : Embedded}

/-! ## What a request does -/

theorem serve_loadBytes_of_ok {program : List UInt8} {next : Machine}
    (h : e.machine.loadProgram program = .ok next) :
    e.serve overflow (.loadBytes program) = (⟨next.restart, false⟩, .done) := by
  rw [serve, loadBytes, h]
  rfl

theorem serve_loadBytes_of_error {program : List UInt8} {problem : LoadError}
    (h : e.machine.loadProgram program = .error problem) :
    e.serve overflow (.loadBytes program) = (e, .refused (.load problem)) := by
  rw [serve, loadBytes, h]
  rfl

theorem serve_loadSource_of_error {source : Text} {problem : Assembly.Error}
    (h : assemble source e.machine.layout.heapStart overflow = .error problem) :
    e.serve overflow (.loadSource source) = (e, .refused (.assembly problem)) := by
  rw [serve, loadSource, h]

theorem serve_loadSource_of_ok {source : Text} {program : List UInt8} {next : Machine}
    (hsource : assemble source e.machine.layout.heapStart overflow = .ok program)
    (h : e.machine.loadProgram program = .ok next) :
    e.serve overflow (.loadSource source) = (⟨next.restart, false⟩, .loaded program.length) := by
  rw [serve, loadSource, hsource]
  dsimp only
  rw [loadBytes, h]
  rfl

theorem serve_loadSource_of_refused {source : Text} {program : List UInt8} {problem : LoadError}
    (hsource : assemble source e.machine.layout.heapStart overflow = .ok program)
    (h : e.machine.loadProgram program = .error problem) :
    e.serve overflow (.loadSource source) = (e, .refused (.load problem)) := by
  rw [serve, loadSource, hsource]
  dsimp only
  rw [loadBytes, h]
  rfl

/-- What an embedded machine becomes on a request and what it replies, by what the machine inside
it does. -/
inductive Served (overflow : Overflow) (e : Embedded) : Request → Embedded → Reply → Prop
  | restarted : Served overflow e .restart ⟨e.machine.restart, false⟩ .done
  | executed {budget : Nat} {next : Machine} {report : Report}
      (run : e.machine.run budget = (next, .ok report)) :
      Served overflow e (.run budget) ⟨next, report.halted⟩ (.executed report.executed)
  | faulted {budget : Nat} {next : Machine} {fault : Fault}
      (run : e.machine.run budget = (next, .error fault)) :
      Served overflow e (.run budget) ⟨next, false⟩ (.faulted fault)
  | written {address : UInt16} {value : UInt8} {next : Machine}
      (write : e.machine.write address value = .ok next) :
      Served overflow e (.write address value) ⟨next, e.halted⟩ .done
  | outOfBounds {address : UInt16} {value : UInt8} {problem : OutOfBounds}
      (write : e.machine.write address value = .error problem) :
      Served overflow e (.write address value) e (.outOfBounds problem)
  | loaded {program : List UInt8} {next : Machine}
      (load : e.machine.loadProgram program = .ok next) :
      Served overflow e (.loadBytes program) ⟨next.restart, false⟩ .done
  | refused {program : List UInt8} {problem : LoadError}
      (load : e.machine.loadProgram program = .error problem) :
      Served overflow e (.loadBytes program) e (.refused (.load problem))
  | sourceLoaded {source : Text} {program : List UInt8} {next : Machine}
      (assembled : assemble source e.machine.layout.heapStart overflow = .ok program)
      (load : e.machine.loadProgram program = .ok next) :
      Served overflow e (.loadSource source) ⟨next.restart, false⟩ (.loaded program.length)
  | sourceRefused {source : Text} {program : List UInt8} {problem : LoadError}
      (assembled : assemble source e.machine.layout.heapStart overflow = .ok program)
      (load : e.machine.loadProgram program = .error problem) :
      Served overflow e (.loadSource source) e (.refused (.load problem))
  | malformed {source : Text} {problem : Assembly.Error}
      (assembled : assemble source e.machine.layout.heapStart overflow = .error problem) :
      Served overflow e (.loadSource source) e (.refused (.assembly problem))

theorem served (overflow : Overflow) (e : Embedded) (request : Request) :
    e.Served overflow request (e.serve overflow request).1 (e.serve overflow request).2 := by
  cases request with
  | restart => exact .restarted
  | run budget =>
      rw [serve, run]
      cases hrun : e.machine.run budget with
      | mk next outcome =>
          cases outcome with
          | ok report => exact .executed hrun
          | error fault => exact .faulted hrun
  | write address value =>
      rw [serve, write]
      cases hwrite : e.machine.write address value with
      | ok next => exact .written hwrite
      | error problem => exact .outOfBounds hwrite
  | loadBytes program =>
      cases hload : e.machine.loadProgram program with
      | ok next =>
          rw [serve_loadBytes_of_ok hload]
          exact .loaded hload
      | error problem =>
          rw [serve_loadBytes_of_error hload]
          exact .refused hload
  | loadSource source =>
      cases hassembled : assemble source e.machine.layout.heapStart overflow with
      | error problem =>
          rw [serve_loadSource_of_error hassembled]
          exact .malformed hassembled
      | ok program =>
          cases hload : e.machine.loadProgram program with
          | ok next =>
              rw [serve_loadSource_of_ok hassembled hload]
              exact .sourceLoaded hassembled hload
          | error problem =>
              rw [serve_loadSource_of_refused hassembled hload]
              exact .sourceRefused hassembled hload

variable {request : Request} {reply : Reply}

/-- The machine inside does and replies the same. -/
theorem Served.exchange {e' : Embedded} (h : e.Served overflow request e' reply) :
    e.machine.exchange overflow request = ⟨e.machine, request, e'.machine, reply⟩ := by
  rw [Machine.exchange]
  cases h with
  | restarted => rfl
  | executed run | faulted run => rw [Machine.serve, run]
  | written write | outOfBounds write => rw [Machine.serve, write]
  | loaded load | refused load => rw [Machine.serve, load]
  | sourceLoaded assembled load | sourceRefused assembled load =>
      simp only [Machine.serve, assembled, load]
  | malformed assembled => rw [Machine.serve, assembled]

/-- A load that is refused changes nothing. -/
theorem Served.eq_of_refused {e' : Embedded} {problem : SourceError}
    (h : e.Served overflow request e' (.refused problem)) : e' = e := by
  cases h with
  | refused | sourceRefused | malformed => rfl

/-! ## The mark for a halt -/

/-- A decisive exchange leaves a mark exactly if it was a run that ended on a halt. -/
theorem Served.halted_of_decisive {e' : Embedded} (h : e.Served overflow request e' reply)
    (hdecisive : (e.machine.exchange overflow request).decisive = true) :
    e'.halted = true ↔ (e.machine.exchange overflow request).EndsOnHalt := by
  rw [h.exchange] at hdecisive ⊢
  cases h with
  | @executed budget next report run =>
      have hhalted := Machine.halted_run_iff (congrArg Prod.snd run)
      rw [run] at hhalted
      constructor
      · intro h
        obtain ⟨instructions, hpath, hexecuted⟩ := hhalted.mp h
        exact ⟨⟨budget, rfl⟩, instructions, hpath, congrArg Reply.executed hexecuted⟩
      · rintro ⟨_, instructions, hpath, hreply⟩
        exact hhalted.mpr ⟨instructions, hpath, Reply.executed.inj hreply⟩
  | faulted =>
      refine iff_of_false Bool.false_ne_true ?_
      rintro ⟨_, _, _, hreply⟩
      cases hreply
  | restarted | loaded | sourceLoaded =>
      refine iff_of_false Bool.false_ne_true ?_
      rintro ⟨⟨_, hrun⟩, _⟩
      cases hrun
  | written | outOfBounds | refused | sourceRefused | malformed => cases hdecisive

/-- Any other exchange leaves the mark as it is. -/
theorem Served.halted_of_not_decisive {e' : Embedded} (h : e.Served overflow request e' reply)
    (hdecisive : (e.machine.exchange overflow request).decisive = false) :
    e'.halted = e.halted := by
  rw [h.exchange] at hdecisive
  cases h with
  | written | outOfBounds | refused | sourceRefused | malformed => rfl
  | restarted | executed | faulted | loaded | sourceLoaded => cases hdecisive

/-! ## Several requests -/

theorem serveAll_cons (overflow : Overflow) (e : Embedded) (request : Request)
    (rest : List Request) :
    e.serveAll overflow (request :: rest) =
      (e.serve overflow request).1.serveAll overflow rest := rfl

theorem serve_machine (overflow : Overflow) (e : Embedded) (request : Request) :
    (e.serve overflow request).1.machine = (e.machine.serve overflow request).1 :=
  (congrArg Exchange.after (served overflow e request).exchange).symm

theorem serve_reply (overflow : Overflow) (e : Embedded) (request : Request) :
    (e.serve overflow request).2 = (e.machine.serve overflow request).2 :=
  (congrArg Exchange.reply (served overflow e request).exchange).symm

theorem serveAll_machine (overflow : Overflow) (e : Embedded) (requests : List Request) :
    (e.serveAll overflow requests).machine = e.machine.serveAll overflow requests := by
  induction requests generalizing e with
  | nil => rfl
  | cons request rest ih =>
      rw [serveAll_cons, ih, serve_machine]
      rfl

/-- The mark is that of the last decisive exchange, or the first one there was. -/
theorem serveAll_halted (overflow : Overflow) (e : Embedded) (requests : List Request) :
    (e.serveAll overflow requests).halted = true ↔
      match ((e.machine.exchanges overflow requests).filter Exchange.decisive).getLast? with
      | some x => x.EndsOnHalt
      | none => e.halted = true := by
  induction requests generalizing e with
  | nil => exact Iff.rfl
  | cons request rest ih =>
      have hserved := served overflow e request
      rw [serveAll_cons, ih, serve_machine, exchanges]
      cases hdecisive : (e.machine.exchange overflow request).decisive with
      | true =>
          rw [List.filter_cons_of_pos hdecisive, List.getLast?_cons]
          split
          · rename_i x hlast
            rw [hlast]
            exact Iff.rfl
          · rename_i hlast
            rw [hlast]
            exact hserved.halted_of_decisive hdecisive
      | false =>
          rw [List.filter_cons_of_neg (by simp [hdecisive]),
            hserved.halted_of_not_decisive hdecisive]

/-! ## Machines of a layout -/

theorem Served.builtFor {e' : Embedded} (h : e.Served overflow request e' reply)
    (hbuilt : e.machine.BuiltFor layout) : e'.machine.BuiltFor layout := by
  cases h with
  | restarted => exact ⟨hbuilt.layout_eq, hbuilt.size⟩
  | @executed budget next report run | @faulted budget next fault run =>
      have hnext := hbuilt.run budget
      rw [run] at hnext
      exact hnext
  | written write =>
      obtain ⟨memory, hmemory, rfl⟩ := exists_of_map_ok write
      exact ⟨hbuilt.layout_eq, (Memory.size_of_write hmemory).trans hbuilt.size⟩
  | loaded load | sourceLoaded assembled load =>
      have hloaded := hbuilt.loaded load
      exact ⟨hloaded.layout_eq, hloaded.size⟩
  | outOfBounds | refused | sourceRefused | malformed => exact hbuilt

theorem serveAll_builtFor (overflow : Overflow) (hbuilt : e.machine.BuiltFor layout)
    (requests : List Request) :
    (e.serveAll overflow requests).machine.BuiltFor layout := by
  induction requests generalizing e with
  | nil => exact hbuilt
  | cons request rest ih => exact ih ((served overflow e request).builtFor hbuilt)

theorem ofLayout_ok_iff :
    ofLayout layout = .ok e ↔ layout.Valid ∧ e = ⟨.blank layout, false⟩ := by
  rw [ofLayout]
  constructor
  · intro h
    obtain ⟨m, hm, rfl⟩ := exists_of_map_ok h
    obtain ⟨hvalid, rfl⟩ := Machine.ofLayout_ok_iff.mp hm
    exact ⟨hvalid, rfl⟩
  · rintro ⟨hvalid, rfl⟩
    rw [Machine.ofLayout_ok_iff.mpr ⟨hvalid, rfl⟩]
    rfl

/-- An embedded machine of a layout follows a plain machine: they are in the same state, they answer
the next request alike, and loads are all or nothing. -/
structure Wraps (overflow : Overflow) (layout : Layout) (e : Embedded) (m : Machine) : Prop where
  machine : e.machine = m
  next : ∀ request, (e.serve overflow request).1.machine = (m.serve overflow request).1
  reply : ∀ request, (e.serve overflow request).2 = (m.serve overflow request).2
  /-- A program that fits is loaded, and the machine starts over with it. -/
  fits : ∀ program, layout.heapStart.toNat + program.length ≤ layout.capacity →
    ∃ loaded, m.loadProgram program = .ok loaded ∧
      e.serve overflow (.loadBytes program) = (⟨loaded.restart, false⟩, .done) ∧
      m.StartsOver program loaded.restart
  tooLarge : ∀ program, layout.capacity < layout.heapStart.toNat + program.length →
    e.serve overflow (.loadBytes program) = (e, .refused (.load
      (.tooLarge program.length (layout.capacity - layout.heapStart.toNat))))
  /-- A source text is loaded as its bytes are. -/
  assembled : ∀ source program, assemble source layout.heapStart overflow = .ok program →
    (e.serve overflow (.loadSource source)).1 = (e.serve overflow (.loadBytes program)).1 ∧
    (e.serve overflow (.loadSource source)).2 =
      if layout.heapStart.toNat + program.length ≤ layout.capacity then .loaded program.length
      else (e.serve overflow (.loadBytes program)).2
  malformed : ∀ source problem, assemble source layout.heapStart overflow = .error problem →
    e.serve overflow (.loadSource source) = (e, .refused (.assembly problem))
  refused : ∀ request problem, (e.serve overflow request).2 = .refused problem →
    (e.serve overflow request).1 = e

theorem wraps_machine (overflow : Overflow) (hvalid : layout.Valid)
    (hbuilt : e.machine.BuiltFor layout) :
    e.Wraps overflow layout e.machine where
  machine := rfl
  next := serve_machine overflow e
  reply := serve_reply overflow e
  fits program hroom := by
    have hload := hbuilt.loadProgram_of_le hroom
    exact ⟨_, hload, serve_loadBytes_of_ok hload, startsOver_of_loadProgram hload⟩
  tooLarge program hlarge := serve_loadBytes_of_error (hbuilt.loadProgram_of_lt hvalid hlarge)
  assembled source program hassembled := by
    rw [← hbuilt.layout_eq] at hassembled
    by_cases hroom : layout.heapStart.toNat + program.length ≤ layout.capacity
    · have hload := hbuilt.loadProgram_of_le hroom
      rw [serve_loadSource_of_ok hassembled hload, serve_loadBytes_of_ok hload, if_pos hroom]
      exact ⟨rfl, rfl⟩
    · have hload := hbuilt.loadProgram_of_lt hvalid (Nat.lt_of_not_le hroom)
      rw [serve_loadSource_of_refused hassembled hload, serve_loadBytes_of_error hload,
        if_neg hroom]
      exact ⟨rfl, rfl⟩
  malformed source problem hproblem := by
    rw [← hbuilt.layout_eq] at hproblem
    exact serve_loadSource_of_error hproblem
  refused request problem hrefused := by
    have hserved := served overflow e request
    rw [hrefused] at hserved
    exact hserved.eq_of_refused

/-- After any requests an embedded machine wraps the machine that the plain operations lead to, and
its mark is set exactly if the last decisive request was a run that ended on a halt. -/
theorem serveAll_faithful (overflow : Overflow) (accepted : ofLayout layout = .ok e)
    (requests : List Request) :
    ∃ m, Machine.ofLayout layout = .ok m ∧
      (e.serveAll overflow requests).Wraps overflow layout (m.serveAll overflow requests) ∧
      ((e.serveAll overflow requests).halted = true ↔
        ∃ x, ((m.exchanges overflow requests).filter Exchange.decisive).getLast? = some x ∧
          x.EndsOnHalt) := by
  obtain ⟨hvalid, rfl⟩ := ofLayout_ok_iff.mp accepted
  refine ⟨.blank layout, Machine.ofLayout_ok_iff.mpr ⟨hvalid, rfl⟩, ?_, ?_⟩
  · have hbuilt := serveAll_builtFor overflow (e := ⟨.blank layout, false⟩)
      (Machine.builtFor_blank layout) requests
    exact serveAll_machine overflow ⟨.blank layout, false⟩ requests ▸
      wraps_machine overflow hvalid hbuilt
  · rw [serveAll_halted]
    cases ((Machine.exchanges overflow (.blank layout) requests).filter
      Exchange.decisive).getLast? with
    | none => simp
    | some x => simp

/-- A program is assembled and run to its halt; then one that does not fit is refused. -/
def haltThenRefusal : List Request :=
  [.loadSource "lda_i 7\nhlt".toList, .run 5, .loadBytes (List.replicate 17 0)]

theorem serveAll_haltThenRefusal :
    let layout : Layout := ⟨16, 0, 8⟩
    let e := (⟨.blank layout, false⟩ : Embedded).serveAll .stops haltThenRefusal
    ∃ m, Machine.ofLayout layout = .ok m ∧
      e.Wraps .stops layout (m.serveAll .stops haltThenRefusal) ∧
      e.machine.registers.acc = 7 ∧ e.halted = true := by
  intro layout e
  have haccepted : ofLayout layout = .ok ⟨.blank layout, false⟩ := rfl
  obtain ⟨m, hm, hwraps, _⟩ := serveAll_faithful .stops haccepted haltThenRefusal
  exact ⟨m, hm, hwraps, by decide +kernel, by decide +kernel⟩

end Embedded
end Accumulator
