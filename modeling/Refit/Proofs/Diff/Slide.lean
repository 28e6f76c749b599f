import Refit.Proofs.Diff.Cover

namespace Refit.Diff

variable {α : Type} {a b : Array α} {i j i' j' m n s len : Nat} {e q t : Edit}
  {l l' edits before after rest : List Edit}

def removedNext : List Edit → Nat
  | [] => 0
  | e :: rest => if e.kind = .keep then 0 else e.oldLen + removedNext rest

def Nearly (i : Nat) : List Edit → Prop
  | [] => True
  | e :: rest => (e.kind = .insert → e.old ≤ i + removedNext rest) ∧ Nearly (i + e.oldLen) rest

theorem Firm.nearly (h : Firm a b i j edits i' j') : Nearly i edits := by
  induction edits generalizing i j with
  | nil => trivial
  | cons e edits ih => exact ⟨fun he => Nat.le_trans (h.1.2 he) (Nat.le_add_right _ _), ih h.2⟩

def Loosens (a b : Array α) (l l' : List Edit) : Prop :=
  ∀ i j i' j', Covers a b i j l i' j' ∧ Nearly i l → Covers a b i j l' i' j' ∧ Nearly i l'

theorem loosens_refl (l : List Edit) : Loosens a b l l := fun _ _ _ _ h => h

theorem Loosens.trans (h : Loosens a b l l') (h' : Loosens a b l' edits) : Loosens a b l edits :=
  fun i j i' j' hc => h' i j i' j' (h i j i' j' hc)

theorem covers_within (h : ∀ i j i' j', Covers a b i j l i' j' → Covers a b i j l' i' j')
    (hc : Covers a b i j (before ++ (l ++ after)) i' j') :
    Covers a b i j (before ++ (l' ++ after)) i' j' := by
  obtain ⟨m, n, hbefore, hc⟩ := tiles_append.mp hc
  obtain ⟨m', n', hl, hafter⟩ := tiles_append.mp hc
  exact tiles_append.mpr ⟨m, n, hbefore, tiles_append.mpr ⟨m', n', h _ _ _ _ hl, hafter⟩⟩

theorem nearly_within (hr : removedNext l = removedNext l') (h : ∀ i, Nearly i l → Nearly i l')
    (before : List Edit) : Nearly i (before ++ l) → Nearly i (before ++ l') := by
  have hnext (before : List Edit) : removedNext (before ++ l) = removedNext (before ++ l') := by
    induction before with
    | nil => exact hr
    | cons e before ih => simp only [List.cons_append, removedNext, ih]
  induction before generalizing i with
  | nil => exact h i
  | cons e before ih =>
    rintro ⟨he, hrest⟩
    exact ⟨fun hk => hnext before ▸ he hk, ih hrest⟩

theorem nearly_swap (hq : q.kind ≠ .keep) (ht : t.kind ≠ .keep)
    (h : Nearly i (before ++ q :: t :: after)) : Nearly i (before ++ t :: q :: after) := by
  refine nearly_within ?_ (fun i h => ?_) before h
  · simp only [removedNext, if_neg hq, if_neg ht]
    omega
  · obtain ⟨hnearq, hneart, hrest⟩ := h
    simp only [removedNext, if_neg ht] at hnearq
    refine ⟨fun hk => ?_, fun hk => ?_, ?_⟩
    · simp only [removedNext, if_neg hq]
      have := hneart hk
      omega
    · have := hnearq hk
      omega
    · rwa [Nat.add_right_comm]

theorem nearly_join (hq : q.kind = .remove) (ht : t.kind = .remove)
    (h : Nearly i (before ++ q :: t :: after)) : Nearly i (before ++ q.join t :: after) := by
  have hjoin : (q.join t).kind = .remove := hq
  refine nearly_within ?_ (fun i h => ?_) before h
  · simp only [removedNext, hq, ht, reduceCtorEq, if_false, Edit.join]
    omega
  · obtain ⟨-, -, hrest⟩ := h
    refine ⟨fun hk => absurd (hjoin.symm.trans hk) (by decide), ?_⟩
    rwa [Edit.join, ← Nat.add_assoc]

theorem loosens_swap (hq : q.kind ≠ .keep) (ht : t.kind ≠ .keep) (hne : q.kind ≠ t.kind)
    (before after : List Edit) :
    Loosens a b (before ++ q :: t :: after) (before ++ t :: q :: after) := by
  have hswap (i j i' j') : Covers a b i j [q, t] i' j' → Covers a b i j [t, q] i' j' := by
    rintro ⟨hfq, hft, rfl, rfl⟩
    cases hqk : q.kind <;> cases htk : t.kind <;> simp_all [Tiles, Edit.Fits]
  exact fun _ _ _ _ h =>
    ⟨covers_within hswap h.1, nearly_swap hq ht h.2⟩

theorem loosens_join (hq : q.kind = .remove) (ht : t.kind = .remove) (before after : List Edit) :
    Loosens a b (before ++ q :: t :: after) (before ++ q.join t :: after) := by
  have hjoin (i j i' j') : Covers a b i j [q, t] i' j' → Covers a b i j [q.join t] i' j' := by
    rintro ⟨hfq, hft, rfl, rfl⟩
    rw [Edit.fits_remove hq] at hfq
    rw [Edit.fits_remove ht] at hft
    refine ⟨(Edit.fits_remove (e := q.join t) hq).mpr ?_, ?_⟩ <;>
      simp only [Tiles, Edit.join] <;> omega
  exact fun _ _ _ _ h =>
    ⟨covers_within hjoin h.1, nearly_join hq ht h.2⟩

theorem loosens_absurd (h : ∀ i j, ¬ e.Fits a b i j) (before after l : List Edit) :
    Loosens a b (before ++ e :: after) l := by
  intro i j i' j' hc
  obtain ⟨m, n, -, hfits, -⟩ := tiles_append.mp hc.1
  exact absurd hfits (h m n)

section Moving

variable [DecidableEq α]

theorem moveUp_loosens (before : List Edit) (t : Edit) (after : List Edit) (ht : t.kind = .remove) :
    Loosens a b (Focus.toList ⟨before, t, after⟩) (moveUp a b before t after).toList := by
  fun_induction moveUp a b before t after with
  | case1 t after => exact loosens_refl _
  | case2 t after q rest hq n hn hempty ih =>
    rw [Focus.toList, List.reverse_cons, List.append_assoc]
    exact loosens_absurd (fun i j hfits => hfits.not_isEmpty hempty) _ _ _
  | case3 t after q rest hq n hn hempty => exact loosens_refl _
  | case4 t after q rest hq n hn after' hempty ih | case5 t after q rest hq n hn after' hempty ih =>
    refine loosens_absurd (fun i j hfits => hn ?_) _ _ _
    have hlen : t.newLen = 0 := hfits.newLen_of_remove ht
    simp [n, hlen, agreeingBack]
  | case6 t after q rest hq he ih =>
    refine Loosens.trans ?_ (ih (he.trans ht))
    rw [Focus.toList, List.reverse_cons, List.append_assoc]
    exact loosens_join (he.trans ht) ht _ _
  | case7 t after q rest hq he ih =>
    refine Loosens.trans ?_ (ih ht)
    rw [Focus.toList, List.reverse_cons, List.append_assoc]
    exact loosens_swap hq (by simp [ht]) he _ _

theorem moveDown_loosens (before : List Edit) (t : Edit) (after : List Edit)
    (ht : t.kind = .remove) :
    Loosens a b (Focus.toList ⟨before, t, after⟩) (moveDown a b before t after).toList := by
  fun_induction moveDown a b before t after with
  | case1 before t => exact loosens_refl _
  | case2 before t q rest hq n hn hempty ih =>
    rw [Focus.toList, List.append_cons]
    exact loosens_absurd (fun i j hfits => hfits.not_isEmpty hempty) _ _ _
  | case3 before t q rest hq n hn hempty => exact loosens_refl _
  | case4 before t q rest hq n hn before' hempty ih
  | case5 before t q rest hq n hn before' hempty ih =>
    refine loosens_absurd (fun i j hfits => hn ?_) _ _ _
    have hlen : t.newLen = 0 := hfits.newLen_of_remove ht
    simp [n, hlen, agreeing]
  | case6 before t q rest hq he ih => exact (loosens_join ht (he.trans ht) _ _).trans (ih ht)
  | case7 before t q rest hq he ih =>
    refine (loosens_swap (by simp [ht]) hq (Ne.symm he) before.reverse rest).trans ?_
    have := ih ht
    rwa [Focus.toList, List.reverse_cons, List.append_assoc] at this

theorem settle_loosens (before rest : List Edit) : Loosens a b (before.reverse ++ rest)
    (settle a b (nofun : Kind.remove ≠ .keep) before rest) := by
  fun_induction settle a b (nofun : Kind.remove ≠ .keep) before rest with
  | case1 before =>
    rw [List.append_nil]
    exact loosens_refl _
  | case2 before t after ht up down ih =>
    have hup := moveUp_loosens (a := a) (b := b) before t after ht
    have hdown := moveDown_loosens (a := a) (b := b) up.before up.edit up.after
      ((moveUp_kind _ _ _ _ _).trans ht)
    rw [List.reverse_cons, List.append_assoc] at ih
    exact (hup.trans hdown).trans ih
  | case3 before t after ht ih =>
    rw [List.reverse_cons, List.append_assoc] at ih
    exact ih

end Moving

def Edit.orNone (e : Edit) : List Edit := if e.isEmpty then [] else [e]

theorem Edit.orNone_reverse (e : Edit) : e.orNone.reverse = e.orNone := by
  unfold orNone
  split <;> rfl

theorem orNone_firm (h : e.isEmpty = false → e.Stands a b i j) (hold : i + e.oldLen = i')
    (hnew : j + e.newLen = j') : Firm a b i j e.orNone i' j' := by
  unfold Edit.orNone
  split
  · rename_i he
    simp only [Edit.isEmpty, Bool.and_eq_true, beq_iff_eq] at he
    exact ⟨by omega, by omega⟩
  · rename_i he
    exact ⟨h (Bool.eq_false_iff.mpr he), hold, hnew⟩

theorem keep_isEmpty (hlen : e.newLen = e.oldLen) (h : e.isEmpty = false) : 0 < e.oldLen := by
  refine Nat.pos_of_ne_zero fun h0 => ?_
  simp [Edit.isEmpty, hlen, h0] at h

theorem shorten_firm (hq : q.kind = .keep) (h : q.Fits a b i j) (hn : n ≤ q.oldLen) :
    Firm a b i j (q.shorten n).orNone (i + q.oldLen - n) (j + q.oldLen - n) := by
  obtain ⟨rfl, rfl, hlen, hpos, hkeep⟩ := (Edit.fits_keep hq).mp h
  have hk : (q.shorten n).kind = .keep := hq
  have hlen' : (q.shorten n).newLen = (q.shorten n).oldLen := by
    simp only [Edit.shorten]
    omega
  refine orNone_firm (fun he => (Edit.stands_keep hk).mpr ((Edit.fits_keep hk).mpr
    ⟨rfl, rfl, hlen', keep_isEmpty hlen' he, hkeep.mono (Nat.sub_le _ _)⟩)) ?_ ?_
  · simp only [Edit.shorten]
    omega
  · simp only [Edit.shorten]
    omega

theorem shiftDown_firm (hq : q.kind = .keep) (h : q.Fits a b i j) (hn : n ≤ q.oldLen) :
    Firm a b (i + n) (j + n) ((q.shiftDown n).shorten n).orNone (i + q.oldLen) (j + q.oldLen) := by
  obtain ⟨rfl, rfl, hlen, hpos, hkeep⟩ := (Edit.fits_keep hq).mp h
  have hk : ((q.shiftDown n).shorten n).kind = .keep := hq
  have hlen' : ((q.shiftDown n).shorten n).newLen = ((q.shiftDown n).shorten n).oldLen := by
    simp only [Edit.shorten, Edit.shiftDown]
    omega
  rw [← Nat.add_sub_cancel' hn] at hkeep
  refine orNone_firm (fun he => (Edit.stands_keep hk).mpr ((Edit.fits_keep hk).mpr
    ⟨rfl, rfl, hlen', keep_isEmpty hlen' he, hkeep.part⟩)) ?_ ?_
  · simp only [Edit.shorten, Edit.shiftDown]
    omega
  · simp only [Edit.shorten, Edit.shiftDown]
    omega

theorem covers_keepAfter {old new : Nat} (h : Covers a b i j (.keep old new n :: after) i' j') :
    Covers a b i j (keepAfter old new n after) i' j' := by
  obtain ⟨hfits, hc⟩ := h
  cases after with
  | nil => exact ⟨hfits, hc⟩
  | cons e rest =>
    rw [keepAfter]
    split
    · rename_i he
      obtain ⟨hfe, hc⟩ := hc
      simp only [Edit.Fits, Edit.keep, he] at hfits hfe
      obtain ⟨rfl, rfl, -, hn, hkeep⟩ := hfits
      obtain ⟨hold, hnew, hlen, hpos, hagree⟩ := hfe
      have hall := hkeep.append hagree
      simp only [Tiles, Edit.Fits, Edit.shiftUp, Edit.lengthen, he]
      refine ⟨⟨by omega, by omega, by omega, by omega, ?_⟩, ?_⟩
      · rwa [Nat.add_comm]
      · rwa [Nat.add_comm e.oldLen, Nat.add_comm e.newLen, ← Nat.add_assoc, ← Nat.add_assoc]
    · exact ⟨hfits, hc⟩

theorem firm_keepBefore {old new : Nat}
    (h : Firm a b i j (before.reverse ++ [.keep old new n]) i' j') :
    Firm a b i j (keepBefore old new n before).reverse i' j' := by
  cases before with
  | nil => exact h
  | cons e rest =>
    rw [keepBefore]
    split
    · rename_i he
      rw [firm_concat, List.reverse_cons] at h
      obtain ⟨_, _, hbefore, ⟨hfits, -⟩, rfl, rfl⟩ := h
      obtain ⟨_, _, hrest, ⟨hfe, -⟩, rfl, rfl⟩ := firm_concat.mp hbefore
      rw [List.reverse_cons, firm_concat]
      have hk : (e.lengthen n).kind = .keep := he
      obtain ⟨rfl, rfl, hlen, hpos, hagree⟩ := (Edit.fits_keep he).mp hfe
      obtain ⟨-, -, -, hn, hkeep⟩ := (Edit.fits_keep rfl).mp hfits
      rw [hlen] at hkeep
      refine ⟨_, _, hrest, (Edit.stands_keep hk).mpr ((Edit.fits_keep hk).mpr
        ⟨rfl, rfl, ?_, ?_, hagree.append hkeep⟩), ?_, ?_⟩
      all_goals
        simp only [Edit.lengthen, Edit.keep] at *
        omega
    · rwa [List.reverse_cons]

def WayBack (a b : Array α) (len : Nat) : Nat → List Edit → Prop
  | s, [] => s = 0
  | s, q :: rest => s ≤ removedNext (q :: rest) ∨
      (q.kind = .remove ∧ WayBack a b len (s - q.oldLen) rest) ∨
      (q.kind = .keep ∧ Agree a b q.old (q.new - len) q.oldLen ∧ WayBack a b len s rest)

theorem wayBack_of_le (h : s ≤ removedNext l) : WayBack a b len s l := by
  cases l with
  | nil => exact Nat.le_zero.mp h
  | cons q rest => exact .inl h

theorem wayBack_keepAfter {old new : Nat} (h : WayBack a b len s after)
    (hc : Covers a b i j (.keep old new n :: after) i' j') (hlen : len ≤ new)
    (hagree : Agree a b old (new - len) n) : WayBack a b len s (keepAfter old new n after) := by
  cases after with
  | nil => exact .inr (.inr ⟨rfl, hagree, h⟩)
  | cons e rest =>
    rw [keepAfter]
    split
    · rename_i he
      obtain hs | ⟨hk, -⟩ | ⟨-, hagree', hrest⟩ := h
      · rw [removedNext, if_pos he] at hs
        exact wayBack_of_le (Nat.le_trans hs (Nat.zero_le _))
      · exact absurd (he.symm.trans hk) (by decide)
      · obtain ⟨hfits, hfe, -⟩ := hc
        simp only [Edit.Fits, Edit.keep, he] at hfits hfe
        obtain ⟨rfl, rfl, -, -, -⟩ := hfits
        obtain ⟨hold, hnew, -, -, -⟩ := hfe
        refine .inr (.inr ⟨he, ?_, hrest⟩)
        simp only [Edit.shiftUp, Edit.lengthen]
        rw [Nat.add_comm e.oldLen, show e.old - n = old by omega, show e.new - n = new by omega]
        refine hagree.append ?_
        rwa [← hold, show new - len + n = e.new - len by omega]
    · exact .inr (.inr ⟨rfl, hagree, h⟩)

structure Sliding (a b : Array α) (before : List Edit) (t : Edit) (after : List Edit)
    (m n s i' j' : Nat) : Prop where
  settled : Firm a b 0 0 before.reverse m n
  kind : t.kind = .insert
  fits : t.Fits a b m n
  old : t.old ≤ m + s
  covers : Covers a b m (n + t.newLen) after i' j'
  nearly : Nearly m after
  wayBack : WayBack a b t.newLen s after

theorem nearly_keepAfter {old new : Nat} (h : Nearly (i + n) after) :
    Nearly i (keepAfter old new n after) := by
  cases after with
  | nil => exact ⟨by simp [Edit.keep], trivial⟩
  | cons e rest =>
    rw [keepAfter]
    split
    · rename_i he
      refine ⟨fun hk => absurd (he.symm.trans hk) (by decide), ?_⟩
      have hrest := h.2
      rwa [Nat.add_assoc, Nat.add_comm n] at hrest
    · exact ⟨by simp [Edit.keep], h⟩

theorem nearly_orNone (he : e.kind = .keep) (h : Nearly (i + e.oldLen) after) :
    Nearly i (e.orNone ++ after) := by
  unfold Edit.orNone
  split
  · rename_i hempty
    simp only [Edit.isEmpty, Bool.and_eq_true, beq_iff_eq] at hempty
    rwa [hempty.1] at h
  · exact ⟨fun hk => absurd (he.symm.trans hk) (by decide), h⟩

theorem wayBack_orNone (he : e.kind = .keep) (hagree : Agree a b e.old (e.new - len) e.oldLen)
    (h : WayBack a b len s after) : WayBack a b len s (e.orNone ++ after) := by
  unfold Edit.orNone
  split
  · exact h
  · exact .inr (.inr ⟨he, hagree, h⟩)

namespace Sliding

theorem swapUp (h : Sliding a b (q :: before) t after m n s i' j') (hq : q.kind = .remove) :
    ∃ m n s, Sliding a b before t (q :: after) m n s i' j' := by
  obtain ⟨hbefore, ht, hfits, hold, hafter, hnear, hback⟩ := h
  rw [List.reverse_cons, firm_concat] at hbefore
  obtain ⟨m₀, n₀, hbefore, ⟨hfq, -⟩, rfl, rfl⟩ := hbefore
  rw [Edit.fits_insert ht] at hfits
  rw [Edit.fits_remove hq] at hfq
  obtain ⟨hqold, hqnew, hqpos⟩ := hfq
  refine ⟨m₀, n₀, q.oldLen + s, hbefore, ht, (Edit.fits_insert ht).mpr ?_, ?_, ⟨?_, ?_⟩,
    ⟨fun hk => absurd (hq.symm.trans hk) nofun, hnear⟩, .inr (.inl ⟨hq, ?_⟩)⟩
  · rwa [hqnew] at hfits
  · rwa [Nat.add_assoc] at hold
  · exact (Edit.fits_remove hq).mpr ⟨hqold, hqnew, hqpos⟩
  · rwa [Nat.add_right_comm] at hafter
  · rwa [Nat.add_sub_cancel_left]

theorem joinUp (h : Sliding a b (q :: before) t after m n s i' j') (hq : q.kind = .insert) :
    ∃ m n s, Sliding a b before (q.join t) after m n s i' j' := by
  obtain ⟨hbefore, ht, hfits, hold, hafter, hnear, hback⟩ := h
  rw [List.reverse_cons, firm_concat] at hbefore
  obtain ⟨m₀, n₀, hbefore, ⟨hfq, hearly⟩, rfl, rfl⟩ := hbefore
  have hjoin : (q.join t).kind = .insert := hq
  rw [Edit.fits_insert ht] at hfits
  rw [Edit.fits_insert hq] at hfq
  obtain ⟨hqnew, hqold, hqpos⟩ := hfq
  rw [hqold] at hafter hnear
  refine ⟨m₀, n₀, 0, hbefore, hjoin, (Edit.fits_insert hjoin).mpr ⟨hqnew, ?_, ?_⟩, hearly hq,
    ?_, hnear, wayBack_of_le (Nat.zero_le _)⟩
  · simp only [Edit.join]
    omega
  · simp only [Edit.join]
    omega
  · rwa [Nat.add_assoc] at hafter

theorem slideUp {k : Nat} (h : Sliding a b (q :: before) t after m n s i' j')
    (hq : q.kind = .keep) (hk : 0 < k) (hle : k ≤ min q.oldLen t.newLen)
    (hagree : Agree a b (q.old + q.oldLen - k) (t.new + t.newLen - k) k) :
    ∃ m n s, Sliding a b ((q.shorten k).orNone ++ before) (t.shiftUp k)
      (keepAfter (q.old + q.oldLen - k) (t.new + t.newLen - k) k after) m n s i' j' := by
  obtain ⟨hbefore, ht, hfits, hold, hafter, hnear, hback⟩ := h
  rw [List.reverse_cons, firm_concat] at hbefore
  obtain ⟨m₀, n₀, hbefore, ⟨hfq, -⟩, rfl, rfl⟩ := hbefore
  obtain ⟨rfl, rfl, hqlen, hqpos, hkeep⟩ := (Edit.fits_keep hq).mp hfq
  obtain ⟨hnew, htold, htpos⟩ := (Edit.fits_insert ht).mp hfits
  rw [hqlen] at hnew hafter
  obtain ⟨hleq, hlet⟩ := Nat.le_min.mp hle
  have hcover : Covers a b (q.old + q.oldLen - k) (q.new + q.oldLen - k + t.newLen)
      (.keep (q.old + q.oldLen - k) (t.new + t.newLen - k) k :: after) i' j' := by
    refine ⟨⟨rfl, ?_, rfl, hk, ?_⟩, ?_⟩
    · simp only [Edit.keep]
      omega
    · rwa [show q.new + q.oldLen - k + t.newLen = t.new + t.newLen - k by omega]
    · simp only [Edit.keep]
      rwa [show q.old + q.oldLen - k + k = q.old + q.oldLen by omega,
        show q.new + q.oldLen - k + t.newLen + k = q.new + q.oldLen + t.newLen by omega]
  refine ⟨q.old + q.oldLen - k, q.new + q.oldLen - k, s, ?_, ht,
    (Edit.fits_insert (e := t.shiftUp k) ht).mpr ?_, ?_, covers_keepAfter hcover, ?_, ?_⟩
  · rw [List.reverse_append, Edit.orNone_reverse]
    exact tiles_append.mpr ⟨_, _, hbefore, shorten_firm hq hfq hleq⟩
  · exact ⟨by simp only [Edit.shiftUp]; omega, htold, htpos⟩
  · simp only [Edit.shiftUp]
    omega
  · refine nearly_keepAfter ?_
    rwa [show q.old + q.oldLen - k + k = q.old + q.oldLen by omega]
  · refine wayBack_keepAfter hback hcover (by simp only [Edit.shiftUp]; omega) ?_
    -- The lines that are slid over are kept lines, and they repeat the last new ones.
    rw [← Nat.sub_add_cancel hleq] at hkeep
    have hlast := hkeep.part
    simp only [Edit.shiftUp]
    rwa [show q.old + (q.oldLen - k) = q.old + q.oldLen - k by omega,
      show q.new + (q.oldLen - k) = t.new + t.newLen - k - t.newLen by omega] at hlast

theorem swapDown (h : Sliding a b before t (q :: after) m n s i' j') (hq : q.kind = .remove) :
    ∃ m n s, Sliding a b (q :: before) t after m n s i' j' := by
  obtain ⟨hbefore, ht, hfits, hold, ⟨hfq, hafter⟩, ⟨-, hnear⟩, hback⟩ := h
  have hqnew := hfq.newLen_of_remove hq
  have hfq' := (Edit.fits_remove hq).mp hfq
  refine ⟨m + q.oldLen, n + q.newLen, s - q.oldLen, ?_, ht, ?_, ?_, ?_, hnear, ?_⟩
  · rw [List.reverse_cons, firm_concat]
    exact ⟨m, n, hbefore,
      ⟨(Edit.fits_remove hq).mpr hfq', fun hk => absurd (hq.symm.trans hk) nofun⟩, rfl, rfl⟩
  · rw [hqnew]
    exact (Edit.fits_insert ht).mpr ((Edit.fits_insert ht).mp hfits)
  · omega
  · rwa [Nat.add_right_comm] at hafter
  · obtain hs | ⟨-, hrest⟩ | ⟨hk, -⟩ := hback
    · refine wayBack_of_le ?_
      rw [removedNext, if_neg (hq ▸ nofun)] at hs
      omega
    · exact hrest
    · exact absurd (hq.symm.trans hk) nofun

theorem joinDown (h : Sliding a b before t (q :: after) m n s i' j') (hq : q.kind = .insert) :
    Sliding a b before (t.join q) after m n s i' j' := by
  obtain ⟨hbefore, ht, hfits, hold, ⟨hfq, hafter⟩, ⟨-, hnear⟩, hback⟩ := h
  have hjoin : (t.join q).kind = .insert := ht
  rw [Edit.fits_insert ht] at hfits
  rw [Edit.fits_insert hq] at hfq
  obtain ⟨hqnew, hqold, hqpos⟩ := hfq
  rw [hqold] at hafter hnear
  obtain ⟨hnew, htold, htpos⟩ := hfits
  refine ⟨hbefore, hjoin, (Edit.fits_insert hjoin).mpr ⟨hnew, ?_, ?_⟩, hold, ?_, hnear, ?_⟩
  · simp only [Edit.join]
    omega
  · simp only [Edit.join]
    omega
  · rwa [Nat.add_assoc] at hafter
  · obtain hs | ⟨hk, -⟩ | ⟨hk, -⟩ := hback
    · refine wayBack_of_le ?_
      rwa [removedNext, if_neg (by simp [hq]), hqold, Nat.zero_add] at hs
    · exact absurd (hq.symm.trans hk) (by decide)
    · exact absurd (hq.symm.trans hk) (by decide)

theorem slideDown {k : Nat} (h : Sliding a b before t (q :: after) m n s i' j')
    (hq : q.kind = .keep) (hk : 0 < k) (hle : k ≤ min q.oldLen t.newLen)
    (hagree : Agree a b q.old t.new k) :
    ∃ m n, Sliding a b (keepBefore q.old t.new k before) (t.shiftDown k)
      (((q.shiftDown k).shorten k).orNone ++ after) m n s i' j' := by
  obtain ⟨hbefore, ht, hfits, hold, ⟨hfq, hafter⟩, ⟨-, hnear⟩, hback⟩ := h
  obtain ⟨hleq, hlet⟩ := Nat.le_min.mp hle
  have hrest := (shiftDown_firm hq hfq hleq).covers
  obtain ⟨rfl, hqnew, hqlen, hqpos, hkeep⟩ := (Edit.fits_keep hq).mp hfq
  obtain ⟨rfl, htold, htpos⟩ := (Edit.fits_insert ht).mp hfits
  have hbefore' : Firm a b 0 0 (before.reverse ++ [.keep q.old t.new k]) (q.old + k)
      (t.new + k) := by
    rw [firm_concat]
    exact ⟨_, _, hbefore, (Edit.stands_keep rfl).mpr ⟨rfl, rfl, rfl, hk, hagree⟩, rfl, rfl⟩
  refine ⟨q.old + k, t.new + k, firm_keepBefore hbefore', ht,
    (Edit.fits_insert (e := t.shiftDown k) ht).mpr ⟨rfl, htold, htpos⟩, ?_, ?_, ?_, ?_⟩
  · simp only [Edit.shiftDown]
    omega
  · rw [hqlen] at hafter
    simp only [Edit.shiftDown]
    rw [Nat.add_right_comm t.new]
    exact tiles_append.mpr ⟨_, _, hrest, hafter⟩
  · refine nearly_orNone hq ?_
    simp only [Edit.shiftDown, Edit.shorten]
    rwa [show q.old + k + (q.oldLen - k) = q.old + q.oldLen by omega]
  · obtain hs | ⟨hr, -⟩ | ⟨-, hagree', hback⟩ := hback
    · rw [removedNext, if_pos hq] at hs
      exact wayBack_of_le (Nat.le_trans hs (Nat.zero_le _))
    · exact absurd (hq.symm.trans hr) nofun
    · refine wayBack_orNone hq ?_ hback
      rw [← Nat.add_sub_cancel' hleq] at hagree'
      simp only [Edit.shiftDown, Edit.shorten]
      rw [show q.new + k - t.newLen = q.new - t.newLen + k by omega]
      exact hagree'.part

theorem back (h : Sliding a b before t (q :: after) m n s i' j') (hq : q.kind = .keep)
    (hne : a[q.old]? ≠ b[t.new]?) : s = 0 := by
  obtain ⟨-, ht, hfits, -, ⟨hfq, -⟩, -, hback⟩ := h
  obtain ⟨-, hqnew, -, hqpos, -⟩ := (Edit.fits_keep hq).mp hfq
  obtain ⟨rfl, -, -⟩ := (Edit.fits_insert ht).mp hfits
  obtain hs | ⟨hr, -⟩ | ⟨-, hagree, -⟩ := hback
  · rw [removedNext, if_pos hq] at hs
    exact Nat.le_zero.mp hs
  · exact absurd (hq.symm.trans hr) nofun
  · have hfirst := hagree 0 hqpos
    rw [hqnew, Nat.add_sub_cancel] at hfirst
    exact absurd hfirst hne

theorem remove_of_ne (h : Sliding a b before t after m n s i' j') (hq : q.kind ≠ .keep)
    (hne : q.kind ≠ t.kind) : q.kind = .remove := by
  rw [h.kind] at hne
  cases hk : q.kind <;> simp_all

end Sliding

section Moving

variable [DecidableEq α]

theorem moveUp_sliding (before : List Edit) (t : Edit) (after : List Edit) :
    ∀ {m n s}, Sliding a b before t after m n s i' j' → ∃ m n s,
      Sliding a b (moveUp a b before t after).before (moveUp a b before t after).edit
        (moveUp a b before t after).after m n s i' j' := by
  fun_induction moveUp a b before t after with
  | case1 t after => exact fun h => ⟨_, _, _, h⟩
  | case2 t after q rest hq k hk hempty =>
    rename_i ih
    intro m n s h
    have hsettled := h.settled
    rw [List.reverse_cons, firm_concat] at hsettled
    obtain ⟨_, _, -, hstands, -⟩ := hsettled
    exact absurd hempty hstands.1.not_isEmpty
  | case3 => exact fun h => ⟨_, _, _, h⟩
  | case4 t after q rest hq k hk after' =>
    rename_i hempty ih
    intro m n s h
    obtain ⟨m, n, s, hslid⟩ := h.slideUp hq (Nat.pos_of_ne_zero hk) (agreeingBack_le _ _ _ _ _)
      (agreeingBack_agree _ _ (by omega) (by omega))
    rw [Edit.orNone, if_pos hempty] at hslid
    exact ih hslid
  | case5 t after q rest hq k hk after' =>
    rename_i hempty ih
    intro m n s h
    obtain ⟨m, n, s, hslid⟩ := h.slideUp hq (Nat.pos_of_ne_zero hk) (agreeingBack_le _ _ _ _ _)
      (agreeingBack_agree _ _ (by omega) (by omega))
    rw [Edit.orNone, if_neg hempty] at hslid
    exact ih hslid
  | case6 t after q rest hq he ih =>
    intro m n s h
    obtain ⟨m, n, s, hjoined⟩ := h.joinUp (he.trans h.kind)
    exact ih hjoined
  | case7 t after q rest hq he ih =>
    intro m n s h
    obtain ⟨m, n, s, hswapped⟩ := h.swapUp (h.remove_of_ne hq he)
    exact ih hswapped

theorem agreeing_eq_zero {limit : Nat} (h : agreeing a b i j limit = 0) (hlimit : 0 < limit) :
    a[i]? ≠ b[j]? := by
  intro hfirst
  cases limit with
  | zero => omega
  | succ limit =>
    rw [agreeing, if_pos hfirst] at h
    omega

/-- An insertion that has moved down is no longer ahead of its place. -/
theorem moveDown_sliding (before : List Edit) (t : Edit) (after : List Edit) :
    ∀ {m n s}, Sliding a b before t after m n s i' j' → ∃ m n, Sliding a b
      (moveDown a b before t after).before (moveDown a b before t after).edit
      (moveDown a b before t after).after m n 0 i' j' := by
  fun_induction moveDown a b before t after with
  | case1 before t =>
    intro m n s h
    have hs : s = 0 := h.wayBack
    exact ⟨m, n, hs ▸ h⟩
  | case2 before t q rest hq k hk hempty => exact fun h => absurd hempty h.covers.1.not_isEmpty
  | case3 before t q rest hq k hk =>
    rename_i hempty
    intro m n s h
    have hq' := (Edit.fits_keep hq).mp h.covers.1
    have ht := (Edit.fits_insert h.kind).mp h.fits
    have hs := h.back hq (agreeing_eq_zero hk (by omega))
    exact ⟨m, n, hs ▸ h⟩
  | case4 before t q rest hq k hk before' =>
    rename_i hempty ih
    intro m n s h
    obtain ⟨m, n, hslid⟩ := h.slideDown hq (Nat.pos_of_ne_zero hk) (agreeing_le _ _ _ _ _)
      (agreeing_agree _ _ _ _ _)
    rw [Edit.orNone, if_pos (show ((q.shiftDown _).shorten _).isEmpty = true from hempty)] at hslid
    exact ih hslid
  | case5 before t q rest hq k hk before' =>
    rename_i hempty ih
    intro m n s h
    obtain ⟨m, n, hslid⟩ := h.slideDown hq (Nat.pos_of_ne_zero hk) (agreeing_le _ _ _ _ _)
      (agreeing_agree _ _ _ _ _)
    have hleft : ¬ ((q.shiftDown k).shorten k).isEmpty = true := hempty
    rw [Edit.orNone, if_neg hleft] at hslid
    exact ih hslid
  | case6 before t q rest hq he ih =>
    intro m n s h
    exact ih (h.joinDown (he.trans h.kind))
  | case7 before t q rest hq he ih =>
    intro m n s h
    obtain ⟨m, n, s, hswapped⟩ := h.swapDown (h.remove_of_ne hq he)
    exact ih hswapped

theorem settle_firm (before rest : List Edit) :
    ∀ {m n}, Firm a b 0 0 before.reverse m n → Covers a b m n rest i' j' → Nearly m rest →
      Firm a b 0 0 (settle a b (nofun : Kind.insert ≠ .keep) before rest) i' j' := by
  fun_induction settle a b (nofun : Kind.insert ≠ .keep) before rest with
  | case1 before =>
    intro m n hsettled hrest _
    obtain ⟨rfl, rfl⟩ := hrest
    exact hsettled
  | case2 before t after ht up =>
    rename_i down ih
    intro m n hsettled hrest hnear
    obtain ⟨hfits, hafter⟩ := hrest
    obtain ⟨hold, hnear⟩ := hnear
    have ht' := (Edit.fits_insert ht).mp hfits
    rw [ht'.2.1] at hafter hnear
    obtain ⟨m₁, n₁, s₁, hup⟩ := moveUp_sliding before t after
      ⟨hsettled, ht, hfits, hold ht, hafter, hnear, wayBack_of_le (Nat.le_refl _)⟩
    obtain ⟨m₂, n₂, hdown⟩ := moveDown_sliding up.before up.edit up.after hup
    have hplaced := (Edit.fits_insert hdown.kind).mp hdown.fits
    refine ih ?_ hdown.covers hdown.nearly
    rw [List.reverse_cons, firm_concat]
    refine ⟨m₂, n₂, hdown.settled, ⟨hdown.fits, fun _ => hdown.old⟩, ?_, rfl⟩
    rw [hplaced.2.1, Nat.add_zero]
  | case3 before t after ht ih =>
    intro m n hsettled hrest hnear
    refine ih ?_ hrest.2 hnear.2
    rw [List.reverse_cons, firm_concat]
    exact ⟨m, n, hsettled, ⟨hrest.1, fun hk => absurd hk ht⟩, rfl, rfl⟩

theorem compact_firm (h : Firm a b 0 0 edits i' j') : Firm a b 0 0 (compact a b edits) i' j' := by
  obtain ⟨hcovers, hnear⟩ := settle_loosens [] edits _ _ _ _ ⟨h.covers, h.nearly⟩
  exact settle_firm [] _ ⟨rfl, rfl⟩ hcovers hnear

end Moving

end Refit.Diff
