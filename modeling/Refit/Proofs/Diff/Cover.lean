import Refit.Diff.Compact
import Refit.Diff.Script

namespace Refit.Diff

variable {α : Type} {a b : Array α}

/-- The `len` elements from `i` and from `j` on are the same. -/
def Agree (a b : Array α) (i j len : Nat) : Prop := ∀ k < len, a[i + k]? = b[j + k]?

section Agree

variable {i j m n : Nat}

theorem Agree.append (h : Agree a b i j m) (h' : Agree a b (i + m) (j + m) n) :
    Agree a b i j (m + n) := by
  intro k hk
  by_cases hm : k < m
  · exact h k hm
  · have hk' := h' (k - m) (by omega)
    rwa [Nat.add_assoc, Nat.add_assoc, Nat.add_sub_cancel' (by omega)] at hk'

theorem Agree.part (h : Agree a b i j (m + n)) : Agree a b (i + m) (j + m) n := by
  intro k hk
  have := h (m + k) (by omega)
  rwa [← Nat.add_assoc, ← Nat.add_assoc] at this

theorem Agree.mono (h : Agree a b i j n) (hm : m ≤ n) : Agree a b i j m :=
  fun k hk => h k (Nat.lt_of_lt_of_le hk hm)

variable [DecidableEq α]

theorem agreeing_agree (a b : Array α) (i j limit : Nat) :
    Agree a b i j (agreeing a b i j limit) := by
  induction limit generalizing i j with
  | zero => exact fun k hk => absurd hk (Nat.not_lt_zero k)
  | succ limit ih =>
    rw [agreeing]
    split
    · rename_i hfirst
      intro k hk
      cases k with
      | zero => exact hfirst
      | succ k =>
        have := ih (i + 1) (j + 1) k (by omega)
        rwa [Nat.add_assoc, Nat.add_assoc, Nat.add_comm 1 k] at this
    · exact fun k hk => absurd hk (Nat.not_lt_zero k)

theorem agreeingBack_agree (a b : Array α) {limit : Nat} (hi : limit ≤ i) (hj : limit ≤ j) :
    Agree a b (i - agreeingBack a b i j limit) (j - agreeingBack a b i j limit)
      (agreeingBack a b i j limit) := by
  induction limit generalizing i j with
  | zero => exact fun k hk => absurd hk (Nat.not_lt_zero k)
  | succ limit ih =>
    rw [agreeingBack]
    split
    · rename_i hlast
      have hle := agreeingBack_le a b (i - 1) (j - 1) limit
      have hagree := ih (i := i - 1) (j := j - 1) (by omega) (by omega)
      refine Agree.append (m := agreeingBack a b (i - 1) (j - 1) limit) (n := 1) ?_ ?_
      · rwa [Nat.sub_add_eq, Nat.sub_add_eq, Nat.sub_right_comm i, Nat.sub_right_comm j]
      · intro k hk
        obtain rfl : k = 0 := by omega
        rw [show i - (agreeingBack a b (i - 1) (j - 1) limit + 1) +
            agreeingBack a b (i - 1) (j - 1) limit + 0 = i - 1 by omega,
          show j - (agreeingBack a b (i - 1) (j - 1) limit + 1) +
            agreeingBack a b (i - 1) (j - 1) limit + 0 = j - 1 by omega]
        exact hlast
    · exact fun k hk => absurd hk (Nat.not_lt_zero k)

end Agree

/-- An edit does its work at `i` on the old side and at `j` on the new one. -/
def Edit.Fits (a b : Array α) (i j : Nat) (e : Edit) : Prop :=
  match e.kind with
  | .keep => e.old = i ∧ e.new = j ∧ e.newLen = e.oldLen ∧ 0 < e.oldLen ∧ Agree a b i j e.oldLen
  | .remove => e.old = i ∧ e.newLen = 0 ∧ 0 < e.oldLen
  | .insert => e.new = j ∧ e.oldLen = 0 ∧ 0 < e.newLen

theorem Edit.fits_keep {i j : Nat} {e : Edit} (he : e.kind = .keep) : e.Fits a b i j ↔
    e.old = i ∧ e.new = j ∧ e.newLen = e.oldLen ∧ 0 < e.oldLen ∧ Agree a b i j e.oldLen := by
  simp only [Fits, he]

theorem Edit.fits_remove {i j : Nat} {e : Edit} (he : e.kind = .remove) :
    e.Fits a b i j ↔ e.old = i ∧ e.newLen = 0 ∧ 0 < e.oldLen := by
  simp only [Fits, he]

theorem Edit.fits_insert {i j : Nat} {e : Edit} (he : e.kind = .insert) :
    e.Fits a b i j ↔ e.new = j ∧ e.oldLen = 0 ∧ 0 < e.newLen := by
  simp only [Fits, he]

def Tiles {β : Type} (fits : Nat → Nat → β → Prop) (oldLen newLen : β → Nat) (i j : Nat) :
    List β → Nat → Nat → Prop
  | [], i', j' => i = i' ∧ j = j'
  | x :: xs, i', j' => fits i j x ∧ Tiles fits oldLen newLen (i + oldLen x) (j + newLen x) xs i' j'

theorem tiles_append {β : Type} {fits : Nat → Nat → β → Prop} {oldLen newLen : β → Nat}
    {i j i' j' : Nat} {xs ys : List β} : Tiles fits oldLen newLen i j (xs ++ ys) i' j' ↔
      ∃ m n, Tiles fits oldLen newLen i j xs m n ∧ Tiles fits oldLen newLen m n ys i' j' := by
  induction xs generalizing i j with
  | nil => exact ⟨fun h => ⟨i, j, ⟨rfl, rfl⟩, h⟩, fun ⟨_, _, ⟨rfl, rfl⟩, h⟩ => h⟩
  | cons x xs ih =>
    simp only [List.cons_append, Tiles, ih]
    exact ⟨fun ⟨hx, m, n, h, h'⟩ => ⟨m, n, ⟨hx, h⟩, h'⟩,
      fun ⟨m, n, ⟨hx, h⟩, h'⟩ => ⟨hx, m, n, h, h'⟩⟩

abbrev Covers (a b : Array α) : Nat → Nat → List Edit → Nat → Nat → Prop :=
  Tiles (Edit.Fits a b) Edit.oldLen Edit.newLen

def Edit.Stands (a b : Array α) (i j : Nat) (e : Edit) : Prop :=
  e.Fits a b i j ∧ (e.kind = .insert → e.old ≤ i)

abbrev Firm (a b : Array α) : Nat → Nat → List Edit → Nat → Nat → Prop :=
  Tiles (Edit.Stands a b) Edit.oldLen Edit.newLen

theorem Firm.covers {i j i' j' : Nat} {edits : List Edit} (h : Firm a b i j edits i' j') :
    Covers a b i j edits i' j' := by
  induction edits generalizing i j with
  | nil => exact h
  | cons e edits ih => exact ⟨h.1.1, ih h.2⟩

variable {i j i' j' n : Nat} {e : Edit} {edits before after : List Edit}

theorem firm_concat : Firm a b i j (edits ++ [e]) i' j' ↔
    ∃ m n, Firm a b i j edits m n ∧ e.Stands a b m n ∧ i' = m + e.oldLen ∧ j' = n + e.newLen :=
  tiles_append.trans ⟨fun ⟨m, n, h, he, hi, hj⟩ => ⟨m, n, h, he, hi.symm, hj.symm⟩,
    fun ⟨m, n, h, he, hi, hj⟩ => ⟨m, n, h, he, hi.symm, hj.symm⟩⟩

theorem Edit.stands_keep (he : e.kind = .keep) : e.Stands a b i j ↔ e.Fits a b i j :=
  ⟨And.left, fun h => ⟨h, fun hk => absurd (he.symm.trans hk) nofun⟩⟩

theorem Edit.Fits.newLen_of_remove (h : e.Fits a b i j) (he : e.kind = .remove) :
    e.newLen = 0 :=
  ((fits_remove he).mp h).2.1

theorem Edit.Fits.not_isEmpty (h : e.Fits a b i j) : ¬ e.isEmpty = true := by
  intro he
  simp only [isEmpty, Bool.and_eq_true, beq_iff_eq] at he
  cases hk : e.kind <;> simp only [Fits, hk] at h <;> omega

theorem keepRun_firm (h : Agree a b i j n) : Firm a b i j (keepRun i j n) (i + n) (j + n) := by
  unfold keepRun
  split
  · exact ⟨by omega, by omega⟩
  · rename_i hn
    exact ⟨⟨⟨rfl, rfl, rfl, Nat.pos_of_ne_zero hn, h⟩, nofun⟩, rfl, rfl⟩

structure Window.Ordered (w : Window) : Prop where
  old : w.oldLow ≤ w.oldHigh
  new : w.newLow ≤ w.newHigh

theorem exchange_firm {w : Window} (hold : w.oldLow < w.oldHigh) (hnew : w.newLow < w.newHigh) :
    Firm a b w.oldLow w.newLow w.exchange w.oldHigh w.newHigh := by
  simp only [Window.exchange, Tiles, Edit.Stands, Edit.Fits, Edit.remove, Edit.insert]
  exact ⟨⟨⟨trivial, trivial, by omega⟩, nofun⟩, ⟨⟨rfl, trivial, by omega⟩, fun _ => by omega⟩,
    by omega, by omega⟩

variable [DecidableEq α]

theorem sharedStart_le (w : Window) : w.sharedStart a b ≤ w.oldHigh - w.oldLow ∧
    w.sharedStart a b ≤ w.newHigh - w.newLow :=
  Nat.le_min.mp (agreeing_le _ _ _ _ _)

theorem sharedEnd_le (w : Window) : w.sharedEnd a b ≤ w.oldHigh - w.oldLow ∧
    w.sharedEnd a b ≤ w.newHigh - w.newLow :=
  Nat.le_min.mp (agreeingBack_le _ _ _ _ _)

theorem sharedEnd_agree (w : Window) :
    Agree a b (w.oldHigh - w.sharedEnd a b) (w.newHigh - w.sharedEnd a b) (w.sharedEnd a b) :=
  agreeingBack_agree a b (by omega) (by omega)

theorem halves_eq_some {w : Window} {point : Int × Int}
    {x : { halves : Window × Window // halves.1.size < w.size ∧ halves.2.size < w.size }}
    (h : w.halves point = some x) : ∃ m n, x.val = (⟨w.oldLow, m, w.newLow, n⟩,
      ⟨m, w.oldHigh, n, w.newHigh⟩) ∧ (w.oldLow ≤ m ∧ m ≤ w.oldHigh) ∧ w.newLow ≤ n ∧
        n ≤ w.newHigh := by
  unfold Window.halves at h
  dsimp only at h
  split at h
  · rename_i hin
    cases h
    exact ⟨_, _, rfl, ⟨hin.1.1, hin.1.2.1⟩, hin.1.2.2.1, hin.1.2.2.2⟩
  · cases h

theorem framed_firm {w : Window} (hw : w.Ordered) {start stop : Nat}
    (hstart : start = w.sharedStart a b)
    (hstop : stop = Window.sharedEnd a b ⟨w.oldLow + start, w.oldHigh, w.newLow + start, w.newHigh⟩)
    (h : ∀ core : Window, core = ⟨w.oldLow + start, w.oldHigh - stop, w.newLow + start,
      w.newHigh - stop⟩ → core.Ordered →
      Firm a b core.oldLow core.newLow edits core.oldHigh core.newHigh) :
    Firm a b w.oldLow w.newLow (keepRun w.oldLow w.newLow start ++ edits ++
      keepRun (w.oldHigh - stop) (w.newHigh - stop) stop) w.oldHigh w.newHigh := by
  obtain ⟨hold, hnew⟩ := hw
  obtain ⟨hsold, hsnew⟩ := sharedStart_le (a := a) (b := b) w
  have hend := sharedEnd_le (a := a) (b := b)
    ⟨w.oldLow + start, w.oldHigh, w.newLow + start, w.newHigh⟩
  have hagree := sharedEnd_agree (a := a) (b := b)
    ⟨w.oldLow + start, w.oldHigh, w.newLow + start, w.newHigh⟩
  rw [← hstart] at hsold hsnew
  rw [← hstop] at hend hagree
  obtain ⟨heold, henew⟩ := hend
  dsimp only at heold henew
  refine tiles_append.mpr ⟨_, _, tiles_append.mpr ⟨_, _, keepRun_firm ?_, h _ rfl ?_⟩, ?_⟩
  · rw [hstart]
    exact agreeing_agree _ _ _ _ _
  · exact ⟨by dsimp only; omega, by dsimp only; omega⟩
  · have := keepRun_firm hagree
    rwa [Nat.sub_add_cancel (by dsimp only; omega), Nat.sub_add_cancel (by dsimp only; omega)]
      at this

theorem window_firm (w : Window) (hw : w.Ordered) :
    Firm a b w.oldLow w.newLow (window a b w) w.oldHigh w.newHigh := by
  fun_induction window a b w with
  | case1 w start inner stop core edits ihFirst ihSecond =>
    refine framed_firm hw rfl rfl fun core' hcore hordered => ?_
    obtain rfl : core' = core := hcore
    obtain ⟨hold, hnew⟩ := hordered
    unfold edits
    split
    · rename_i hc
      exact ⟨hc.1.symm, hc.2.symm⟩
    split
    · rename_i hc
      simp only [Tiles, Edit.Stands, Edit.Fits, Edit.remove]
      exact ⟨⟨⟨trivial, trivial, by omega⟩, nofun⟩, by omega, by omega⟩
    split
    · rename_i hc
      simp only [Tiles, Edit.Stands, Edit.Fits, Edit.insert]
      exact ⟨⟨⟨trivial, trivial, by omega⟩, fun _ => Nat.le_refl _⟩, by omega, by omega⟩
    split
    · exact exchange_firm (by omega) (by omega)
    · rename_i first second hsmaller hfound
      obtain ⟨point, -, hpoint⟩ := Option.bind_eq_some_iff.mp hfound
      obtain ⟨m, n, hhalves, hm, hn⟩ := halves_eq_some hpoint
      obtain ⟨rfl, rfl⟩ := Prod.mk.inj hhalves
      exact tiles_append.mpr ⟨m, n, ihFirst _ _ hsmaller ⟨hm.1, hn.1⟩,
        ihSecond _ _ hsmaller ⟨hm.2, hn.2⟩⟩

theorem script_firm (a b : Array α) : Firm a b 0 0 (script a b) a.size b.size :=
  window_firm ⟨0, a.size, 0, b.size⟩ ⟨Nat.zero_le _, Nat.zero_le _⟩

end Refit.Diff
