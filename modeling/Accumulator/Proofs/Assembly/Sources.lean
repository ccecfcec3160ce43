import Accumulator.Proofs.Assembly.Statements

/-!
# Sources whose lines denote bytes

A line that holds a printed statement and a comment denotes the bytes of the statement. A source of
such lines assembles to all their bytes in order, as long as they fit the address space; where they
do not, it is refused at the first line that ends past the last address.
-/

namespace Accumulator.Assembly

open Text

/-- A line without a label whose statement yields given bytes. -/
def Denotes (line : Text) (bytes : List UInt8) : Prop :=
  ∃ body, SourceLine.ofText line = ⟨none, body⟩ ∧ Assembles body bytes

theorem stripComment_append {text : Text} (comment : Text)
    (h : ∀ c ∈ text, c ≠ '\'' ∧ c ≠ ';') :
    stripComment false (text ++ ';' :: comment) = text := by
  induction text with
  | nil => simp [stripComment]
  | cons c rest ih =>
      rw [List.forall_mem_cons] at h
      simp [stripComment, h.1.1, h.1.2, ih h.2]

theorem stripComment_eq_self {text : Text} (h : ∀ c ∈ text, c ≠ '\'' ∧ c ≠ ';') :
    stripComment false text = text := by
  induction text with
  | nil => rfl
  | cons c rest ih =>
      rw [List.forall_mem_cons] at h
      simp [stripComment, h.1.1, h.1.2, ih h.2]

/-- A printed text with blanks around it is the body of a line, with or without a comment. -/
theorem Printed.sourceLine {line body before after : Text} (h : Printed body)
    (hb : ∀ c ∈ before, isBlank c = true) (ha : ∀ c ∈ after, isBlank c = true)
    (hstrip : stripComment false line = before ++ body ++ after) :
    SourceLine.ofText line = ⟨none, body⟩ := by
  have hcolon : ∀ c ∈ body, (c == ':') = false := by
    intro c hc
    exact beq_eq_false_iff_ne.mpr (ne_of_test (h.chars c hc) rfl)
  simp only [SourceLine.ofText, hstrip, h.tight.trim_eq h.ne_nil before after hb ha,
    cutAtFirst_eq_none hcolon]

theorem isBlank_of_mem_replicate (n : Nat) : ∀ c ∈ List.replicate n ' ', isBlank c = true := by
  intro c hc
  rw [List.eq_of_mem_replicate hc]
  rfl

theorem ne_of_mem_replicate (n : Nat) : ∀ c ∈ List.replicate n ' ', c ≠ '\'' ∧ c ≠ ';' := by
  intro c hc
  rw [List.eq_of_mem_replicate hc]
  decide

theorem Printed.plain {body : Text} (h : Printed body) : ∀ c ∈ body, c ≠ '\'' ∧ c ≠ ';' := by
  intro c hc
  constructor
  · exact ne_of_test (h.chars c hc) rfl
  · exact ne_of_test (h.chars c hc) rfl

/-- An indented statement, padded and followed by a comment, denotes its bytes. -/
theorem Assembles.denotes {body : Text} {bytes : List UInt8} (h : Assembles body bytes)
    (width : Nat) (comment : Text) :
    Denotes (List.replicate 4 ' ' ++ body.padRight width ++ ' ' :: ';' :: comment) bytes := by
  have hplain : ∀ c ∈ List.replicate 4 ' ' ++ body.padRight width ++ [' '],
      c ≠ '\'' ∧ c ≠ ';' := by
    simp only [padRight, List.forall_mem_append, List.forall_mem_singleton]
    exact ⟨⟨ne_of_mem_replicate 4, h.plain, ne_of_mem_replicate _⟩, by decide⟩
  refine ⟨body, h.sourceLine (isBlank_of_mem_replicate 4)
    (isBlank_of_mem_replicate (width - body.length + 1)) ?_, h⟩
  calc
    stripComment false (List.replicate 4 ' ' ++ body.padRight width ++ ' ' :: ';' :: comment) =
        stripComment false
          (List.replicate 4 ' ' ++ body.padRight width ++ [' '] ++ ';' :: comment) := by simp
    _ = List.replicate 4 ' ' ++ body.padRight width ++ [' '] := stripComment_append comment hplain
    _ = List.replicate 4 ' ' ++ body ++ List.replicate (width - body.length + 1) ' ' := by
      simp [padRight, List.replicate_succ']

/-- A statement alone on a line denotes its bytes. -/
theorem Assembles.denotes_self {body : Text} {bytes : List UInt8} (h : Assembles body bytes) :
    Denotes body bytes := by
  refine ⟨body, h.sourceLine (List.forall_mem_nil _) (List.forall_mem_nil _) ?_, h⟩
  rw [stripComment_eq_self h.plain, List.nil_append, List.append_nil]

/-! ## Reading -/

variable {overflow : Overflow}

theorem readLine_of_empty {line : Text} (h : SourceLine.ofText line = ⟨none, []⟩)
    (overflow : Overflow) (draft : Draft) (n : Nat) :
    draft.readLine overflow n line = .ok draft := by
  simp [Draft.readLine, h, Draft.defineLabel, Draft.placeBody, Except.mapError]

theorem readLine_of_body {line body : Text} {statement : Statement}
    (hline : SourceLine.ofText line = ⟨none, body⟩) (hne : body ≠ [])
    (hstatement : Statement.ofText body = .ok statement) (overflow : Overflow) (draft : Draft)
    (n : Nat) :
    draft.readLine overflow n line = (draft.place overflow n statement).mapError (⟨n, ·⟩) := by
  simp [Draft.readLine, hline, Draft.defineLabel, Draft.placeBody, hne, hstatement]

/-- A draft with a statement put at its location. -/
def extend (draft : Draft) (line : Nat) (statement : Statement) (size : Nat) : Draft :=
  { draft with
    location := draft.location + size
    placed := draft.placed.push ⟨line, draft.location, size, statement⟩ }

theorem readLines_cons {draft next : Draft} {line : Text} {n : Nat}
    (h : draft.readLine overflow n line = .ok next) (rest : List Text) :
    draft.readLines overflow ((line :: rest).zipIdx n) =
      next.readLines overflow (rest.zipIdx (n + 1)) := by
  rw [List.zipIdx_cons, Draft.readLines, h]

theorem readLines_cons_error {draft : Draft} {line : Text} {n : Nat} {e : Error}
    (h : draft.readLine overflow n line = .error e) (rest : List Text) :
    draft.readLines overflow ((line :: rest).zipIdx n) = .error e := by
  rw [List.zipIdx_cons, Draft.readLines, h]

theorem place_fits {draft : Draft} {statement : Statement} {size : Nat}
    (hsize : draft.sizeOf overflow statement = .ok size)
    (hfit : draft.location + size ≤ Draft.addressLimit) (n : Nat) :
    draft.place overflow n statement = .ok (extend draft n statement size) := by
  rw [Draft.place, hsize]
  exact if_neg (by omega)

theorem place_overflows {draft : Draft} {statement : Statement} {size : Nat}
    (hsize : draft.sizeOf overflow statement = .ok size)
    (hover : Draft.addressLimit < draft.location + size) (n : Nat) :
    draft.place overflow n statement = .error .pastLastAddress := by
  rw [Draft.place, hsize]
  exact if_pos (by omega)

theorem emit_cons {symbols : Symbols} {placed : Placed} {rest : List Placed}
    {first bytes : List UInt8} (hp : placed.emit overflow symbols = .ok first)
    (hr : emit overflow symbols rest = .ok bytes) :
    emit overflow symbols (placed :: rest) = .ok (first ++ bytes) := by
  unfold emit at hr ⊢
  rw [List.mapM_cons, hp]
  cases hm : rest.mapM (Placed.emit overflow symbols) with
  | error e => simp [hm, Except.map] at hr
  | ok others =>
      simp only [hm, Except.map, Except.ok.injEq] at hr
      simp [Except.map, hr, bind, Except.bind, pure, Except.pure]

/-- Lines that fit are placed one after the other, and yield their bytes in order. -/
theorem readLines_fits {items : List (Text × List UInt8)}
    (h : ∀ item ∈ items, Denotes item.1 item.2) (overflow : Overflow) (draft : Draft) (n : Nat)
    (hfit : draft.location + (items.flatMap Prod.snd).length ≤ Draft.addressLimit) :
    ∃ next added, draft.readLines overflow ((items.map Prod.fst).zipIdx n) = .ok next ∧
      next.placed.toList = draft.placed.toList ++ added ∧
      ∀ symbols, emit overflow symbols added = .ok (items.flatMap Prod.snd) := by
  induction items generalizing draft n with
  | nil => exact ⟨draft, [], rfl, by simp, fun _ => rfl⟩
  | cons item rest ih =>
      rw [List.forall_mem_cons] at h
      obtain ⟨body, hline, hbody⟩ := h.1
      obtain ⟨statement, hstatement, hyields⟩ := hbody.statement
      rw [List.flatMap_cons, List.length_append] at hfit
      have hread := readLine_of_body hline hbody.ne_nil hstatement overflow draft n
      rw [place_fits (hyields.sizeOf overflow draft) (by omega) n] at hread
      obtain ⟨next, added, hnext, hplaced, hemit⟩ :=
        ih h.2 (extend draft n statement item.2.length) (n + 1) (by
          simpa only [extend, Nat.add_assoc] using hfit)
      refine ⟨next, ⟨n, draft.location, item.2.length, statement⟩ :: added, ?_, ?_, ?_⟩
      · rw [List.map_cons, readLines_cons hread]
        exact hnext
      · rw [hplaced]
        simp [extend]
      · intro symbols
        refine emit_cons ?_ (hemit symbols)
        rw [Placed.emit, hyields.bytes]
        rfl

/-- Lines that do not fit are refused where the first of them ends past the last address. -/
theorem readLines_overflows {items : List (Text × List UInt8)}
    (h : ∀ item ∈ items, Denotes item.1 item.2) (overflow : Overflow) (draft : Draft) (n : Nat)
    (hstart : draft.location ≤ Draft.addressLimit)
    (hover : Draft.addressLimit < draft.location + (items.flatMap Prod.snd).length) :
    ∃ line, draft.readLines overflow ((items.map Prod.fst).zipIdx n) =
      .error ⟨line, .pastLastAddress⟩ := by
  induction items generalizing draft n with
  | nil =>
      simp at hover
      omega
  | cons item rest ih =>
      rw [List.forall_mem_cons] at h
      obtain ⟨body, hline, hbody⟩ := h.1
      obtain ⟨statement, hstatement, hyields⟩ := hbody.statement
      rw [List.flatMap_cons, List.length_append] at hover
      have hread := readLine_of_body hline hbody.ne_nil hstatement overflow draft n
      by_cases hfit : draft.location + item.2.length ≤ Draft.addressLimit
      · rw [place_fits (hyields.sizeOf overflow draft) hfit n] at hread
        obtain ⟨line, hrest⟩ :=
          ih h.2 (extend draft n statement item.2.length) (n + 1) hfit (by
            simpa only [extend, Nat.add_assoc] using hover)
        refine ⟨line, ?_⟩
        rw [List.map_cons, readLines_cons hread]
        exact hrest
      · rw [place_overflows (hyields.sizeOf overflow draft) (by omega) n] at hread
        exact ⟨n, readLines_cons_error hread _⟩

/-- Statements with a line feed between neighbours assemble to their bytes in order, if these fit
the address space. -/
theorem assemble_join {items : List (Text × List UInt8)}
    (h : ∀ item ∈ items, Assembles item.1 item.2) (base : UInt16) (overflow : Overflow)
    (hfit : base.toNat + (items.flatMap Prod.snd).length ≤ Draft.addressLimit) :
    assemble (join ['\n'] (items.map Prod.fst)) base overflow = .ok (items.flatMap Prod.snd) := by
  have hlines : lines (join ['\n'] (items.map Prod.fst)) = items.map Prod.fst := by
    have htexts : ∀ text ∈ items.map Prod.fst,
        text ≠ [] ∧ ∀ c ∈ text, isCodeChar c = true := by
      intro text htext
      obtain ⟨item, hitem, rfl⟩ := List.mem_map.mp htext
      exact ⟨(h item hitem).ne_nil, (h item hitem).chars⟩
    exact lines_join rfl rfl htexts
  obtain ⟨next, added, hread, hplaced, hemit⟩ :=
    readLines_fits (fun item hitem => (h item hitem).denotes_self) overflow (.start base) 1 hfit
  have hadded : next.placed.toList = added := by
    rw [hplaced]
    rfl
  rw [assemble, Draft.ofSource, hlines, hread]
  simp only [Draft.finish, hadded, hemit]

end Accumulator.Assembly
