import Refit.Sources

namespace Refit

namespace Ignore

def linesOf (bytes : ByteArray) : List (List Char) :=
  Text.lines ((PatternFile.readableText bytes).dropWhile (· == '\uFEFF'))

/-- A fault names a line that is no pattern, and says why it is none. -/
structure LineFault.Names (fault : LineFault) (number : Nat) (line : List Char) : Prop where
  counted : fault.number = number
  shown : fault.line = String.ofList (trimLine line)
  cause : readLine line = .error fault.fault

namespace PatternFile

variable {f : PatternFile} {fault : LineFault} {number : Nat} {line : List Char}
  {lines : List (List Char)} {bytes : ByteArray}

theorem mem_addLine :
    fault ∈ (f.addLine number line).faults ↔ fault ∈ f.faults ∨ fault.Names number line := by
  unfold addLine
  cases hr : readLine line with
  | error cause =>
    rw [List.mem_append, List.mem_singleton]
    refine or_congr_right ⟨?_, fun h => ?_⟩
    · rintro rfl
      exact ⟨rfl, rfl, hr⟩
    · obtain ⟨number', line', cause'⟩ := fault
      obtain ⟨rfl, rfl, hcause⟩ := h
      rw [hr] at hcause
      cases hcause
      rfl
  | ok found =>
    have hnot : ¬ fault.Names number line := by
      intro h
      have hcause := h.cause
      rw [hr] at hcause
      cases hcause
    cases found with
    | none => exact (or_iff_left hnot).symm
    | some p => exact (or_iff_left hnot).symm

theorem mem_ofLines : fault ∈ (f.ofLines number lines).faults ↔ fault ∈ f.faults ∨
    ∃ k line, lines[k]? = some line ∧ fault.Names (number + k) line := by
  induction lines generalizing f number with
  | nil => simp [ofLines]
  | cons first lines ih =>
    rw [ofLines, ih, mem_addLine, or_assoc]
    refine or_congr_right ⟨?_, ?_⟩
    · rintro (h | ⟨k, line, hline, h⟩)
      · exact ⟨0, first, rfl, h⟩
      · refine ⟨k + 1, line, hline, ?_⟩
        rwa [Nat.add_comm k, ← Nat.add_assoc]
    · rintro ⟨_ | k, line, hline, h⟩
      · cases hline
        exact .inl h
      · refine .inr ⟨k, line, hline, ?_⟩
        rwa [Nat.add_assoc, Nat.add_comm 1]

theorem mem_ofBytes : fault ∈ (ofBytes bytes).faults ↔
    ∃ k line, (linesOf bytes)[k]? = some line ∧ fault.Names (k + 1) line := by
  unfold ofBytes
  rw [mem_ofLines, or_iff_right List.not_mem_nil]
  simp only [linesOf, Nat.add_comm 1]

end PatternFile

def LineFault.Of (fault : LineFault) (t : Tree) (path : String) : Prop :=
  ∃ bytes k line, t.read path = .ok bytes ∧ (linesOf bytes)[k]? = some line ∧
    fault.Names (k + 1) line

theorem mem_fileAt {t : Tree} {path : String} {fault : LineFault} :
    fault ∈ (fileAt t path).faults ↔ fault.Of t path := by
  unfold fileAt LineFault.Of
  cases t.read path with
  | error cause =>
    constructor
    · exact nofun
    · rintro ⟨_, _, _, ⟨⟩, -⟩
  | ok bytes =>
    rw [PatternFile.mem_ofBytes]
    constructor
    · rintro ⟨k, line, h⟩
      exact ⟨bytes, k, line, rfl, h⟩
    · rintro ⟨_, k, line, ⟨⟩, h⟩
      exact ⟨k, line, h⟩

def filesOf (t : Tree) (directory : String) : List String :=
  [Rules.plainPath directory, Rules.sharedPath directory] ++
    ((repositoryDirectory t directory).map Rules.excludePath).toList

end Ignore

namespace Sources

variable {t : Tree} {start : Place} {directory path : String} {fault : Ignore.LineFault}

/-- A line of an ignore file above the start that is no pattern. -/
def FaultyAbove (t : Tree) (start : Place) (path : String) (fault : Ignore.LineFault) : Prop :=
  ∃ above : Place, above <+: start ∧ above ≠ start ∧ path ∈ Ignore.filesOf t above.text ∧
    fault.Of t path

theorem faultsOf_eq (t : Tree) (directory : String) : faultsOf t directory =
    (Ignore.filesOf t directory).flatMap fun file =>
      (Ignore.fileAt t file).faults.map fun fault => (file, fault) := by
  unfold faultsOf Ignore.Rules.ofDirectory Ignore.filesOf
  cases Ignore.repositoryDirectory t directory <;> simp

theorem mem_faultsOf : (path, fault) ∈ faultsOf t directory ↔
    path ∈ Ignore.filesOf t directory ∧ fault.Of t path := by
  rw [faultsOf_eq, List.mem_flatMap]
  constructor
  · rintro ⟨file, hfile, hm⟩
    obtain ⟨fault, hf, ⟨⟩⟩ := List.mem_map.mp hm
    exact ⟨hfile, Ignore.mem_fileAt.mp hf⟩
  · rintro ⟨hfile, hf⟩
    exact ⟨path, hfile, List.mem_map.mpr ⟨fault, Ignore.mem_fileAt.mpr hf, rfl⟩⟩

theorem mem_faultsAbove :
    (path, fault) ∈ faultsAbove t start ↔ FaultyAbove t start path fault := by
  unfold faultsAbove
  rw [List.mem_flatMap]
  constructor
  · rintro ⟨n, hn, hf⟩
    refine ⟨start.take n, List.take_prefix n start, fun he => ?_, mem_faultsOf.mp hf⟩
    have hlen := congrArg List.length he
    rw [List.length_take] at hlen
    have hn := List.mem_range.mp hn
    omega
  · rintro ⟨above, hp, hne, hf⟩
    have hlt : above.length < start.length :=
      Nat.lt_of_le_of_ne hp.length_le fun he => hne (hp.eq_of_length he)
    refine ⟨above.length, List.mem_range.mpr hlt, mem_faultsOf.mpr ?_⟩
    rwa [← List.prefix_iff_eq_take.mp hp]

end Sources

end Refit
