import Accumulator.Proofs.Machine.Events

/-!
# The call stack

The frames in memory refine a list of return addresses, innermost last. A call appends the address
that follows it and a return removes the last one; in between the frames stay what they are as long
as nothing else writes to a live frame. So every return goes back to its own call.
-/

namespace Accumulator

/-! ## Words in memory -/

namespace Memory

/-- A word is stored at an address, the low byte first. -/
def HoldsWord (memory : Memory) (address : Nat) (word : UInt16) : Prop :=
  memory.at? address = some (lowByte word) ∧ memory.at? (address + 1) = some (highByte word)

variable {memory : Memory}

theorem HoldsWord.readWord {address : UInt16} {word : UInt16}
    (h : memory.HoldsWord address.toNat word) (hlimit : address.toNat + 1 < 0x10000) :
    memory.readWord address = .ok word := by
  rw [Memory.readWord, h.1]
  simp only [hlimit, if_true, h.2, joinBytes_lowByte_highByte]

theorem holdsWord_put {address : Nat} (word : UInt16) (h : address + 1 < memory.size) :
    ((memory.put address (lowByte word)).put (address + 1) (highByte word)).HoldsWord address
      word := by
  constructor
  · rw [at?_put, if_neg (by omega), at?_put, if_pos ⟨rfl, Nat.lt_of_succ_lt h⟩]
  · rw [at?_put, if_pos ⟨rfl, by rwa [size_put]⟩]

end Memory

namespace Machine

/-- A cell belongs to a frame that is on the call stack. -/
def IsLive (m : Machine) (cell : Nat) : Prop :=
  m.layout.stackStart.toNat ≤ cell ∧ cell < m.registers.sp.toNat

instance (m : Machine) (cell : Nat) : Decidable (m.IsLive cell) :=
  inferInstanceAs (Decidable (_ ∧ _))

/-- An event touches no cell of a live frame. -/
def Spares (m : Machine) (e : Event) : Prop := ∀ cell ∈ m.touched e, ¬ m.IsLive cell

instance (m : Machine) (e : Event) : Decidable (m.Spares e) :=
  inferInstanceAs (Decidable (∀ cell ∈ m.touched e, ¬ m.IsLive cell))

/-- Each of several events touches no cell of a frame that is live when it happens. -/
def SparesAll : Machine → List Event → Prop
  | _, [] => True
  | m, e :: rest => m.Spares e ∧ (m.respond e).SparesAll rest

/-! ## The abstract stack -/

/-- The address that follows a call at the program counter. -/
def returnAddress (m : Machine) : UInt16 := m.registers.pc + 3

/-- The return addresses after an event, given those before it. -/
def follow (m : Machine) (returns : List UInt16) (e : Event) : List UInt16 :=
  match m.stackMove e with
  | .push => returns ++ [m.returnAddress]
  | .pop => returns.dropLast
  | .keep => returns

/-- The return addresses after several events. -/
def followAll : Machine → List UInt16 → List Event → List UInt16
  | _, returns, [] => returns
  | m, returns, e :: rest => followAll (m.respond e) (m.follow returns e) rest

/-- The frames in memory are those of a list of return addresses, innermost last. -/
structure Stacks (m : Machine) (returns : List UInt16) : Prop where
  sp : m.registers.sp.toNat = m.layout.stackStart.toNat + 2 * returns.length
  frame : ∀ k (h : k < returns.length),
    m.memory.HoldsWord (m.layout.stackStart.toNat + 2 * k) returns[k]

variable {m m' : Machine} {returns : List UInt16}

theorem stacks_nil (h : m.registers.sp = m.layout.stackStart) : m.Stacks [] := by
  constructor
  · rw [h]
    rfl
  · intro k hk
    exact absurd hk (Nat.not_lt_zero k)

theorem Stacks.limit (h : m.Stacks returns) :
    m.layout.stackStart.toNat + 2 * returns.length < 0x10000 :=
  h.sp ▸ m.registers.sp.toNat_lt

theorem Stacks.isLive (h : m.Stacks returns) {k : Nat} (hk : k < returns.length) :
    m.IsLive (m.layout.stackStart.toNat + 2 * k) ∧
      m.IsLive (m.layout.stackStart.toNat + 2 * k + 1) := by
  have hsp := h.sp
  constructor
  · constructor <;> omega
  · constructor <;> omega

theorem filterMap_range_length {α : Type} {xs : List α} {f : Nat → Option α}
    (h : ∀ k (hk : k < xs.length), f k = some xs[k]) :
    (List.range xs.length).filterMap f = xs := by
  induction xs generalizing f with
  | nil => rfl
  | cons x xs ih =>
      rw [List.length_cons, List.range_succ_eq_map, List.filterMap_cons,
        h 0 (Nat.succ_pos _), List.filterMap_map]
      apply congrArg (x :: ·)
      apply ih
      intro k hk
      exact h (k + 1) (Nat.succ_lt_succ hk)

/-- The call stack that a host sees is the list of return addresses. -/
theorem Stacks.callStack (h : m.Stacks returns) : m.callStack = returns := by
  have hlimit := h.limit
  have hcount : m.frameCount = returns.length := by
    have hsp := h.sp
    rw [frameCount, Layout.frameSize]
    omega
  have hread : ∀ k (hk : k < returns.length),
      m.memory.readWord (m.frameAddress k) = .ok returns[k] := by
    intro k hk
    have haddress : (m.frameAddress k).toNat = m.layout.stackStart.toNat + 2 * k := by
      have hoffset : (UInt16.ofNat (2 * k)).toNat = 2 * k :=
        UInt16.toNat_ofNat_of_lt' (by rw [UInt16.size]; omega)
      rw [frameAddress, Layout.frameSize, toNat_add_of_lt (by omega), hoffset]
    apply Memory.HoldsWord.readWord
    · rw [haddress]
      exact h.frame k hk
    · omega
  rw [Machine.callStack, hcount]
  apply filterMap_range_length
  intro k hk
  rw [hread k hk]
  rfl

theorem Stacks.keep (h : m.Stacks returns) (hlayout : m'.layout = m.layout)
    (hsp : m'.registers.sp = m.registers.sp)
    (hmemory : ∀ cell, m.IsLive cell → m'.memory.at? cell = m.memory.at? cell) :
    m'.Stacks returns := by
  constructor
  · rw [hsp, hlayout]
    exact h.sp
  · intro k hk
    obtain ⟨hfirst, hsecond⟩ := h.isLive hk
    obtain ⟨hlow, hhigh⟩ := h.frame k hk
    rw [hlayout]
    exact ⟨(hmemory _ hfirst).trans hlow, (hmemory _ hsecond).trans hhigh⟩

theorem Stacks.push {word : UInt16} (h : m.Stacks returns)
    (hroom : m.registers.sp.toNat + 2 ≤ m.memory.size) (hlayout : m'.layout = m.layout)
    (hsp : m'.registers.sp.toNat = m.registers.sp.toNat + 2)
    (hmemory : m'.memory = (m.memory.put m.registers.sp.toNat (lowByte word)).put
      (m.registers.sp.toNat + 1) (highByte word)) :
    m'.Stacks (returns ++ [word]) := by
  have hstart := h.sp
  constructor
  · calc
      m'.registers.sp.toNat = m.registers.sp.toNat + 2 := hsp
      _ = m'.layout.stackStart.toNat + 2 * returns.length + 2 := by rw [hstart, hlayout]
      _ = m'.layout.stackStart.toNat + 2 * (returns ++ [word]).length := by
        rw [List.length_append, List.length_singleton, Nat.mul_succ, Nat.add_assoc]
  · intro k hk
    rw [List.length_append, List.length_singleton] at hk
    rw [hlayout, hmemory]
    by_cases hlast : k = returns.length
    · subst hlast
      rw [List.getElem_concat_length rfl, ← hstart]
      exact Memory.holdsWord_put word hroom
    · have hk' : k < returns.length := by omega
      obtain ⟨hlow, hhigh⟩ := h.frame k hk'
      rw [List.getElem_append_left hk']
      constructor
      · rw [at?_put_of_ne (by omega), at?_put_of_ne (by omega), hlow]
      · rw [at?_put_of_ne (by omega), at?_put_of_ne (by omega), hhigh]

theorem Stacks.length_pos (h : m.Stacks returns)
    (hframe : m.layout.stackStart.toNat + 2 ≤ m.registers.sp.toNat) : 0 < returns.length := by
  have hsp := h.sp
  omega

theorem Stacks.pop (h : m.Stacks returns)
    (hframe : m.layout.stackStart.toNat + 2 ≤ m.registers.sp.toNat) (hlayout : m'.layout = m.layout)
    (hsp : m'.registers.sp = m.registers.sp - 2) (hmemory : m'.memory = m.memory) :
    m'.Stacks returns.dropLast := by
  have hstart := h.sp
  have hpos := h.length_pos hframe
  have hsub : (m.registers.sp - 2).toNat = m.registers.sp.toNat - 2 := toNat_sub_two hframe
  constructor
  · rw [hsp, hsub, hlayout, List.length_dropLast]
    omega
  · intro k hk
    rw [List.length_dropLast] at hk
    rw [hlayout, hmemory, List.getElem_dropLast]
    exact h.frame k (Nat.lt_of_lt_of_le hk (Nat.sub_le _ _))

/-- The word below the stack pointer is the innermost return address. -/
theorem Stacks.getLast? {word : UInt16} (h : m.Stacks returns)
    (hframe : m.layout.stackStart.toNat + 2 ≤ m.registers.sp.toNat)
    (hread : m.memory.readWord (m.registers.sp - 2) = .ok word) :
    returns.getLast? = some word := by
  have hstart := h.sp
  have hpos := h.length_pos hframe
  have hlast : returns.length - 1 < returns.length := Nat.sub_lt hpos Nat.one_pos
  have hsub : (m.registers.sp - 2).toNat =
      m.layout.stackStart.toNat + 2 * (returns.length - 1) := by
    rw [toNat_sub_two hframe]
    omega
  have hlimit := h.limit
  have htop := h.frame _ hlast
  rw [← hsub] at htop
  have hword := htop.readWord (by omega)
  rw [hread, Except.ok.injEq] at hword
  rw [List.getLast?_eq_getElem?, List.getElem?_eq_getElem hlast, hword]

/-! ## Runs -/

theorem stackMove_of_executed {e : Event} {i : Instruction} (h : m.executed? e = some i) :
    m.stackMove e = i.stackMove := by
  rw [stackMove, h]
  rfl

theorem follow_push {e : Event} (h : m.stackMove e = .push) :
    m.follow returns e = returns ++ [m.returnAddress] := by
  rw [follow, h]

theorem follow_pop {e : Event} (h : m.stackMove e = .pop) :
    m.follow returns e = returns.dropLast := by
  rw [follow, h]

theorem follow_keep {e : Event} (h : m.stackMove e = .keep) : m.follow returns e = returns := by
  rw [follow, h]

/-- An event that spares the live frames keeps the frames and the return addresses together. -/
theorem Stacks.respond {e : Event} (h : m.Stacks returns) (hspares : m.Spares e) :
    (m.respond e).Stacks (m.follow returns e) := by
  cases hmove : m.stackMove e with
  | push =>
      rw [follow_push hmove]
      cases changes_of_stackMove hmove with
      | push next room layout sp memory => exact h.push room layout sp memory
  | pop =>
      rw [follow_pop hmove]
      cases changes_of_stackMove hmove with
      | pop frame pc layout sp memory => exact h.pop frame layout sp memory
  | keep =>
      rw [follow_keep hmove]
      cases changes_of_stackMove hmove with
      | keep layout sp memory =>
          apply h.keep layout sp
          intro cell hlive
          apply memory
          intro htouched
          exact hspares cell htouched hlive

theorem Stacks.respondAll {events : List Event} (h : m.Stacks returns)
    (hspares : m.SparesAll events) :
    (m.respondAll events).Stacks (m.followAll returns events) := by
  induction events generalizing m returns with
  | nil => exact h
  | cons e rest ih => exact ih (h.respond hspares.1) hspares.2

/-- A return goes back to the innermost return address. -/
theorem Stacks.return_target {e : Event} (h : m.Stacks returns) (hmove : m.stackMove e = .pop) :
    returns.getLast? = some (m.respond e).registers.pc := by
  cases changes_of_stackMove hmove with
  | pop frame pc => exact h.getLast? frame pc

/-- Whether events lead from a call to its own return, which is the last of them. The number counts
the calls since then that have not returned. -/
def returnsAfter : Nat → Machine → List Event → Bool
  | _, _, [] => false
  | depth, m, e :: rest =>
      match m.stackMove e with
      | .push => returnsAfter (depth + 1) (m.respond e) rest
      | .pop => if depth = 0 then rest.isEmpty else returnsAfter (depth - 1) (m.respond e) rest
      | .keep => returnsAfter depth (m.respond e) rest

/-- The return that belongs to a call goes back to the address that the call has pushed. -/
theorem Stacks.return_to_call {outer inner : List UInt16} {word : UInt16} {events : List Event}
    (h : m.Stacks (outer ++ word :: inner)) (hspares : m.SparesAll events)
    (hreturns : returnsAfter inner.length m events = true) :
    (m.respondAll events).registers.pc = word := by
  induction events generalizing m inner with
  | nil => exact absurd hreturns Bool.false_ne_true
  | cons e rest ih =>
      have hnext := h.respond hspares.1
      rw [returnsAfter] at hreturns
      cases hmove : m.stackMove e with
      | push =>
          rw [follow_push hmove, List.append_assoc, List.cons_append] at hnext
          rw [hmove] at hreturns
          apply ih hnext hspares.2
          rwa [List.length_append, List.length_singleton]
      | keep =>
          rw [follow_keep hmove] at hnext
          rw [hmove] at hreturns
          exact ih hnext hspares.2 hreturns
      | pop =>
          rw [follow_pop hmove] at hnext
          rw [hmove] at hreturns
          obtain rfl | ⟨inner, last, rfl⟩ := List.eq_nil_or_concat inner
          · obtain rfl : rest = [] := by simpa using hreturns
            have htarget := h.return_target hmove
            rw [List.getLast?_append, List.getLast?_singleton] at htarget
            exact (Option.some.inj htarget).symm
          · rw [List.concat_eq_append] at hreturns hnext
            have hdepth : (inner ++ [last]).length ≠ 0 := by simp
            simp only [hdepth, if_false] at hreturns
            rw [List.length_append, List.length_singleton, Nat.add_sub_cancel] at hreturns
            rw [← List.cons_append, ← List.append_assoc, List.dropLast_concat] at hnext
            exact ih hnext hspares.2 hreturns

/-- A machine that has just been set up. -/
inductive SetUp : Machine → Prop
  | ofLayout {layout : Layout} {m : Machine} (accepted : ofLayout layout = .ok m) : SetUp m
  | restart (m : Machine) : SetUp m.restart
  | reset (m : Machine) : SetUp m.reset

theorem SetUp.sp (h : m.SetUp) : m.registers.sp = m.layout.stackStart := by
  cases h with
  | @ofLayout layout _ accepted =>
      obtain ⟨valid, _, rfl⟩ := exists_of_map_ok accepted
      rfl
  | restart m => rfl
  | reset m => rfl

/-- As long as nothing but calls writes to live frames, the call stack of a machine that has been
set up is the list of the return addresses of the calls that have not returned, and a return goes
to the last of them. So a call is resumed behind it by its own return. -/
theorem callStack_refines (hsetup : m.SetUp) (events : List Event) (hspares : m.SparesAll events) :
    (m.respondAll events).callStack = m.followAll [] events ∧
    (∀ m', (m.respondAll events).step = (m', .ok .ret) →
      (m.followAll [] events).getLast? = some m'.registers.pc) ∧
    ∀ target inside, (m.respondAll events).executed? .step = some (.call target) →
      (m.respondAll events).SparesAll (.step :: inside) →
      returnsAfter 0 ((m.respondAll events).respond .step) inside = true →
      ((m.respondAll events).respondAll (.step :: inside)).registers.pc.toNat =
        (m.respondAll events).registers.pc.toNat + 3 := by
  have hstacks := (stacks_nil hsetup.sp).respondAll hspares
  refine ⟨hstacks.callStack, ?_, ?_⟩
  · intro m' hstep
    have htarget : (m.followAll [] events).getLast? =
        some ((m.respondAll events).respond .step).registers.pc :=
      hstacks.return_target (stackMove_of_executed (executed?_step hstep))
    rwa [respond, hstep] at htarget
  · intro target inside hcall hinside hreturns
    have hmove : (m.respondAll events).stackMove .step = .push := stackMove_of_executed hcall
    have hpushed := hstacks.respond hinside.1
    rw [follow_push hmove] at hpushed
    have hpc : ((m.respondAll events).respondAll (.step :: inside)).registers.pc =
        (m.respondAll events).returnAddress := hpushed.return_to_call hinside.2 hreturns
    cases changes_of_stackMove hmove with
    | push next =>
        rw [hpc]
        exact toNat_add_of_lt (b := 3) next

/-- A small machine with two frames of room. -/
def smallMachine : Machine := blank ⟨16, 0, 12⟩

/-- The host loads a call at 0, whose routine at 6 calls a routine at 10, which returns at once. It
also writes to a cell where no frame is yet. -/
def loadNested : List Event :=
  [.load 0 [0x42, 0x06, 0x00, 0x01, 0x00, 0x00, 0x42, 0x0A, 0x00, 0x43, 0x43], .write 12 0xFF]

theorem callStack_refines_nested :
    smallMachine.SetUp ∧ smallMachine.SparesAll loadNested ∧
    (smallMachine.respondAll loadNested).callStack = smallMachine.followAll [] loadNested ∧
    (smallMachine.respondAll loadNested).executed? .step = some (.call 6) ∧
    returnsAfter 0 ((smallMachine.respondAll loadNested).respond .step) [.step, .step, .step] =
      true ∧
    ((smallMachine.respondAll loadNested).respondAll
        [.step, .step, .step, .step]).registers.pc.toNat =
      (smallMachine.respondAll loadNested).registers.pc.toNat + 3 := by
  have haccepted : ofLayout ⟨16, 0, 12⟩ = .ok smallMachine := rfl
  have hspares : smallMachine.SparesAll loadNested := ⟨by decide, by decide, trivial⟩
  have hcall : (smallMachine.respondAll loadNested).executed? .step = some (.call 6) := by
    decide
  have hreturns : returnsAfter 0 ((smallMachine.respondAll loadNested).respond .step)
      [.step, .step, .step] = true := by
    decide +kernel
  have hinside : (smallMachine.respondAll loadNested).SparesAll [.step, .step, .step, .step] :=
    ⟨by decide, by decide, by decide, by decide, trivial⟩
  obtain ⟨hstack, _, hresumes⟩ := callStack_refines (.ofLayout haccepted) loadNested hspares
  exact ⟨.ofLayout haccepted, hspares, hstack, hcall, hreturns,
    hresumes 6 [.step, .step, .step] hcall hinside hreturns⟩

end Machine
end Accumulator
