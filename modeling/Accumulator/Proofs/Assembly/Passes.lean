import Accumulator.Proofs.Assembly.Encoding
import Accumulator.Proofs.Machine.Events

/-!
# The two passes of the assembler agree

Reading a source places its statements and fixes the labels; the bytes come afterwards. Both go by
the same addresses: every statement has its bytes where it was placed, and a label is the address of
the bytes of the statement that comes next. So a program that is loaded where it was assembled for
finds its statements at its labels.
-/

namespace Accumulator.Assembly

variable {overflow : Overflow} {source : Text} {base : UInt16} {draft : Draft} {p : Placed}
  {output : List UInt8}

/-! ## A source -/

theorem exists_of_assemble_ok (h : assemble source base overflow = .ok output) :
    ∃ draft, Draft.ofSource overflow source base = .ok draft ∧
      draft.finish overflow = .ok output := by
  rw [assemble] at h
  cases hdraft : Draft.ofSource overflow source base with
  | error e => simp [hdraft] at h
  | ok draft =>
      rw [hdraft] at h
      exact ⟨draft, rfl, h⟩

namespace Draft

theorem laid_of_ofSource (h : ofSource overflow source base = .ok draft) :
    draft.Laid overflow base.toNat :=
  (laid_start base).readLines h

/-- The placed statements are those of the source. -/
theorem stems_of_ofSource (h : ofSource overflow source base = .ok draft) :
    List.Forall₂ Stems draft.placed.toList ((source.lines.zipIdx 1).filter hasStatement) := by
  obtain ⟨added, hadded, hstems⟩ := exists_added_of_readLines h
  have hall : draft.placed.toList = added := hadded
  rwa [hall]

/-- A program that is loaded where it was assembled for has every statement at its address. -/
theorem Laid.at?_of_loadProgram {m loaded : Machine} {bytes : List UInt8} {k : Nat}
    (h : draft.Laid overflow m.layout.heapStart.toNat)
    (hfinish : draft.finish overflow = .ok output)
    (hload : m.loadProgram output = .ok loaded) (hp : p ∈ draft.placed.toList)
    (hbytes : p.bytes overflow draft.symbols = .ok bytes) (hk : k < p.size) :
    loaded.memory.at? (p.address + k) = bytes[k]? := by
  obtain ⟨early, own, late, hown, rfl, haddress, hsize⟩ :=
    exists_parts_of_mem h.contiguous h.sized hfinish hp
  obtain rfl : own = bytes := Except.ok.inj (hown.symm.trans hbytes)
  have hlength : early.length + k < (early ++ (own ++ late)).length := by
    rw [List.length_append, List.length_append]
    omega
  rw [← haddress, Nat.add_assoc, Machine.at?_of_loadProgram hload hlength,
    List.getElem?_append_right (Nat.le_add_right _ _), Nat.add_sub_cancel_left,
    List.getElem?_append_left (by omega)]

end Draft

/-! ## Agreement -/

end Accumulator.Assembly
