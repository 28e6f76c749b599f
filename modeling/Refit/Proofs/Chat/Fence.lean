import Refit.Chat.Fence
import Refit.Proofs.Text.Blank

namespace Refit.Chat

open Text

variable {cs rest before after line body : List Char}

theorem cutLine_suffix (h : (cutLine cs).2 = some rest) : rest <:+ cs := by
  fun_induction cutLine cs with
  | case1 => cases h
  | case2 after =>
    obtain rfl : after = rest := Option.some.inj h
    exact List.suffix_cons '\n' after
  | case3 c after hc ih => exact (ih h).trans (List.suffix_cons c after)

theorem dropFirstLine_suffix (cs : List Char) : dropFirstLine cs <:+ cs := by
  unfold dropFirstLine
  cases h : (cutLine cs).2 with
  | none => exact List.suffix_refl cs
  | some rest => exact cutLine_suffix h

theorem dropClosing_isPrefix (cs : List Char) : dropClosing cs <+: cs := by
  unfold dropClosing
  split
  · exact List.take_prefix _ cs
  · exact List.prefix_refl cs

theorem unfence_tight (cs : List Char) : Tight (unfence cs) := by
  unfold unfence
  dsimp only
  split
  · exact trim_tight _
  · exact trim_tight cs

theorem unfence_infix (cs : List Char) : unfence cs <:+: cs := by
  unfold unfence
  dsimp only
  split
  · have hfirst := (dropFirstLine_suffix (trim cs)).isInfix.trans (trim_isInfix cs)
    have hlast := (dropClosing_isPrefix (dropFirstLine (trim cs))).isInfix.trans hfirst
    exact (trim_isInfix _).trans hlast
  · exact trim_isInfix cs

theorem unfence_of_blank (h : Blank cs) : unfence cs = [] := by
  unfold unfence
  rw [trim_of_blank h]
  rfl

theorem cutLine_append (h : '\n' ∉ line) (rest : List Char) :
    (cutLine (line ++ rest)).2 = (cutLine rest).2 := by
  induction line with
  | nil => rfl
  | cons c line ih =>
    obtain ⟨hc, hline⟩ := not_or.mp (mt List.mem_cons.mpr h)
    rw [List.cons_append, cutLine]
    · exact ih hline
    · exact fun he => hc he.symm

theorem dropFirstLine_feed (h : '\n' ∉ line) (rest : List Char) :
    dropFirstLine (line ++ '\n' :: rest) = rest := by
  rw [dropFirstLine, cutLine_append h]
  rfl

theorem dropFirstLine_of_not_mem (h : '\n' ∉ cs) : dropFirstLine cs = cs := by
  have hcut := cutLine_append h []
  rw [List.append_nil] at hcut
  rw [dropFirstLine, hcut]
  rfl

theorem dropClosing_append (cs : List Char) : dropClosing (cs ++ fence) = cs := by
  have hclosing : fence.isSuffixOf (cs ++ fence) = true :=
    List.isSuffixOf_iff_suffix.mpr (List.suffix_append cs fence)
  rw [dropClosing, if_pos hclosing, List.length_append, Nat.add_sub_cancel, List.take_left]

theorem tight_fenced (cs : List Char) : Tight (fence ++ (cs ++ fence)) := by
  constructor
  · rintro c ⟨⟩
    rfl
  · intro c hc
    rw [← List.append_assoc, List.getLast?_append_of_ne_nil _ (by decide)] at hc
    obtain rfl := Option.some.inj hc
    rfl

theorem unfence_padded (hb : Blank before) (ha : Blank after) (cs : List Char) :
    unfence (before ++ (fence ++ (cs ++ fence) ++ after)) =
      trim (dropClosing (dropFirstLine (fence ++ (cs ++ fence)))) := by
  rw [unfence, trim_padded hb ha (tight_fenced cs)]
  exact if_pos (List.isPrefixOf_iff_prefix.mpr (List.prefix_append fence _))

theorem unfence_feed (hb : Blank before) (ha : Blank after) (h : '\n' ∉ line) (body : List Char) :
    unfence (before ++ (fence ++ (line ++ '\n' :: body ++ fence) ++ after)) = trim body := by
  have hline : '\n' ∉ fence ++ line := by simpa [fence] using h
  have hsplit : fence ++ (line ++ '\n' :: body ++ fence) =
      (fence ++ line) ++ '\n' :: (body ++ fence) := by simp
  rw [unfence_padded hb ha, hsplit, dropFirstLine_feed hline, dropClosing_append]

theorem trim_fence_append (cs : List Char) : trim (fence ++ cs) = fence ++ trimEnd cs := by
  have hstart : trimStart (fence ++ cs) = fence ++ cs := rfl
  rw [trim, hstart, trimEnd, trimEnd, trimStart, List.reverse_append, List.dropWhile_append]
  -- from the end, all of the text is blank or trimming stops in it
  split
  · rename_i h
    rw [trimStart, List.isEmpty_iff.mp h]
    rfl
  · rw [List.reverse_append, List.reverse_reverse]
    rfl

theorem unfence_line (hb : Blank before) (ha : Blank after) (h : '\n' ∉ body) :
    unfence (before ++ (fence ++ (body ++ fence) ++ after)) = fence ++ trimEnd body := by
  have hline : '\n' ∉ fence ++ (body ++ fence) := by simpa [fence] using h
  rw [unfence_padded hb ha, dropFirstLine_of_not_mem hline, ← List.append_assoc, dropClosing_append,
    trim_fence_append]

end Refit.Chat
