import Mathlib.Data.List.Basic
import Mathlib.Data.List.TakeWhile
import Refit.Text.Blank

namespace Refit.Text

variable {cs before after core : List Char} {c : Char}

def Blank (cs : List Char) : Prop := ∀ c ∈ cs, isBlank c = true

theorem allBlank_iff : allBlank cs = true ↔ Blank cs := List.all_eq_true

theorem trimStart_split (cs : List Char) : ∃ before, Blank before ∧ cs = before ++ trimStart cs :=
  ⟨cs.takeWhile isBlank, fun _ hc => List.mem_takeWhile_imp hc,
    (List.takeWhile_append_dropWhile).symm⟩

theorem trimEnd_split (cs : List Char) : ∃ after, Blank after ∧ cs = trimEnd cs ++ after := by
  obtain ⟨after, ha, hafter⟩ := trimStart_split cs.reverse
  refine ⟨after.reverse, fun c hc => ha c (List.mem_reverse.mp hc), ?_⟩
  rw [← List.reverse_inj, List.reverse_append, List.reverse_reverse, trimEnd,
    List.reverse_reverse]
  exact hafter

/-- What trimming takes off is blanks. -/
theorem trim_split (cs : List Char) :
    ∃ before after, Blank before ∧ Blank after ∧ cs = before ++ (trim cs ++ after) := by
  obtain ⟨before, hb, hbefore⟩ := trimStart_split cs
  obtain ⟨after, ha, hafter⟩ := trimEnd_split (trimStart cs)
  refine ⟨before, after, hb, ha, ?_⟩
  rw [trim, ← hafter]
  exact hbefore

theorem trimStart_eq_self (h : ∀ c ∈ cs.head?, isBlank c = false) : trimStart cs = cs := by
  cases cs with
  | nil => rfl
  | cons c cs =>
    have hc := h c rfl
    simp [trimStart, hc]

/-- A text that neither starts nor ends with a blank. -/
structure Tight (cs : List Char) : Prop where
  first : ∀ c ∈ cs.head?, isBlank c = false
  last : ∀ c ∈ cs.getLast?, isBlank c = false

theorem trimStart_first (cs : List Char) : ∀ c ∈ (trimStart cs).head?, isBlank c = false := by
  induction cs with
  | nil => exact nofun
  | cons d cs ih =>
    by_cases hd : isBlank d = true
    · have hrest : trimStart (d :: cs) = trimStart cs := List.dropWhile_cons_of_pos hd
      rw [hrest]
      exact ih
    · have hall : trimStart (d :: cs) = d :: cs := List.dropWhile_cons_of_neg hd
      rw [hall]
      rintro c ⟨⟩
      exact Bool.eq_false_iff.mpr hd

theorem trim_tight (cs : List Char) : Tight (trim cs) := by
  constructor
  · intro c hc
    obtain ⟨after, -, hstart⟩ := trimEnd_split (trimStart cs)
    apply trimStart_first cs
    have hfirst : (trimEnd (trimStart cs)).head? = some c := hc
    rw [hstart, List.head?_append, hfirst]
    rfl
  · intro c hc
    rw [trim, trimEnd, List.getLast?_reverse] at hc
    exact trimStart_first _ c hc

theorem trim_isInfix (cs : List Char) : trim cs <:+: cs := by
  obtain ⟨before, after, -, -, hcs⟩ := trim_split cs
  exact ⟨before, after, by rw [List.append_assoc, ← hcs]⟩

theorem trim_of_blank (h : Blank cs) : trim cs = [] := by
  have hstart : trimStart cs = [] := List.dropWhile_eq_nil_iff.mpr h
  rw [trim, hstart]
  rfl

theorem trim_padded (hb : Blank before) (ha : Blank after) (hc : Tight core) :
    trim (before ++ (core ++ after)) = core := by
  have hbefore : before.all isBlank = true := List.all_eq_true.mpr hb
  have hafter : after.reverse.all isBlank = true :=
    List.all_eq_true.mpr fun c hm => ha c (List.mem_reverse.mp hm)
  rw [trim, trimStart_append_of_all hbefore]
  by_cases hne : core = []
  · rw [hne, List.nil_append, ← trim_of_blank ha]
    rfl
  · have hstart : trimStart (core ++ after) = core ++ after := by
      refine trimStart_eq_self ?_
      rw [List.head?_append_of_ne_nil _ hne]
      exact hc.first
    have hend : trimStart core.reverse = core.reverse := by
      refine trimStart_eq_self ?_
      rw [List.head?_reverse]
      exact hc.last
    rw [hstart, trimEnd, List.reverse_append, trimStart_append_of_all hafter, hend,
      List.reverse_reverse]

end Refit.Text
