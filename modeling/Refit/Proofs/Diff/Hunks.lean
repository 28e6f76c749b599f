import Mathlib.Data.List.Chain
import Refit.Diff.Hunk
import Refit.Proofs.Diff.Cover

namespace Refit.Diff

variable {α : Type} {a b : Array α} {i j i' j' m n g : Nat} {e : Edit} {edits : List Edit}
  {x y : Block} {xs ys hunk rest : List Block} {hs : List (List Block)}

namespace Block

def isKeep : Block → Bool
  | keep _ => true
  | change _ _ => false

/-- A block does its work at `i` on the old side and at `j` on the new one. Of an insertion alone it
is only known that it claims no later place on the old side. -/
def Fits (a b : Array α) (i j : Nat) : Block → Prop
  | keep r => r.old = i ∧ r.new = j ∧ 0 < r.len ∧ Agree a b i j r.len
  | change removed added =>
    (∀ r ∈ removed, r.old = i ∧ 0 < r.len) ∧
      (∀ r ∈ added, r.new = j ∧ 0 < r.len ∧ (removed = none → r.old ≤ i)) ∧
      (removed = none → added ≠ none)

end Block

abbrev Laid (a b : Array α) : Nat → Nat → List Block → Nat → Nat → Prop :=
  Tiles (Block.Fits a b) Block.oldLen Block.newLen

def Alternate (xs : List Block) : Prop := xs.IsChain fun x y => x.isKeep ≠ y.isKeep

@[simp] theorem Run.extend_old (r : Run) (next : Option Run) : (r.extend next).old = r.old := by
  cases next <;> rfl

@[simp] theorem Run.extend_new (r : Run) (next : Option Run) : (r.extend next).new = r.new := by
  cases next <;> rfl

@[simp] theorem Run.extend_len (r : Run) (next : Option Run) :
    (r.extend next).len = r.len + (next.map Run.len).getD 0 := by
  cases next <;> rfl

theorem Edit.run_len (hk : e.kind ≠ .insert) : e.run.len = e.oldLen := if_neg hk

theorem Edit.run_len_of_insert (hk : e.kind = .insert) : e.run.len = e.newLen := if_pos hk

theorem joinBlocks_laid (he : e.Stands a b i j)
    (h : Laid a b (i + e.oldLen) (j + e.newLen) xs i' j') :
    Laid a b i j (e.joinBlocks xs) i' j' := by
  obtain ⟨hfits, hearly⟩ := he
  unfold Edit.joinBlocks
  split
  · rename_i r rest hk
    have hlen := Edit.run_len (e := e) (by simp [hk])
    obtain ⟨⟨hrold, hrnew, hrlen, hragree⟩, hrest⟩ := h
    obtain ⟨rfl, rfl, hsame, hpos, hagree⟩ := (Edit.fits_keep hk).mp hfits
    rw [hsame] at hragree hrest
    simp only [Tiles, Block.Fits, Block.oldLen, Block.newLen, Run.extend_old, Run.extend_new,
      Run.extend_len, hlen, Option.map_some, Option.getD_some] at hrest ⊢
    refine ⟨⟨rfl, rfl, by omega, hagree.append hragree⟩, ?_⟩
    rwa [← Nat.add_assoc, ← Nat.add_assoc]
  · rename_i hk _
    have hlen := Edit.run_len (e := e) (by simp [hk])
    obtain ⟨rfl, rfl, hsame, hpos, hagree⟩ := (Edit.fits_keep hk).mp hfits
    rw [hsame] at h
    rw [← hlen] at hpos hagree h
    exact ⟨⟨rfl, rfl, hpos, hagree⟩, h⟩
  · rename_i removed added rest hk
    have hlen := Edit.run_len (e := e) (by simp [hk])
    obtain ⟨⟨hremoved, hadded, -⟩, hrest⟩ := h
    obtain ⟨rfl, hnew, hpos⟩ := (Edit.fits_remove hk).mp hfits
    rw [hnew, Nat.add_zero] at hadded hrest
    refine ⟨⟨fun r hr => ?_, fun r hr => ?_, by simp⟩, ?_⟩
    · obtain rfl := Option.some.inj hr
      exact ⟨Run.extend_old _ _, by rw [Run.extend_len]; omega⟩
    · exact ⟨(hadded r hr).1, (hadded r hr).2.1, by simp⟩
    · simpa [Block.oldLen, Block.newLen, hlen, Nat.add_assoc] using hrest
  · rename_i hk _
    have hlen := Edit.run_len (e := e) (by simp [hk])
    obtain ⟨rfl, hnew, hpos⟩ := (Edit.fits_remove hk).mp hfits
    rw [hnew] at h
    refine ⟨⟨fun r hr => ?_, by simp, by simp⟩, ?_⟩
    · obtain rfl := Option.some.inj hr
      exact ⟨rfl, by omega⟩
    · simpa [Block.oldLen, Block.newLen, hlen] using h
  · rename_i removed added rest hk
    have hlen := Edit.run_len_of_insert (e := e) hk
    obtain ⟨⟨hremoved, hadded, -⟩, hrest⟩ := h
    obtain ⟨rfl, hold, hpos⟩ := (Edit.fits_insert hk).mp hfits
    rw [hold, Nat.add_zero] at hremoved hrest
    refine ⟨⟨hremoved, fun r hr => ?_, by simp⟩, ?_⟩
    · obtain rfl := Option.some.inj hr
      refine ⟨Run.extend_new _ _, ?_, fun _ => ?_⟩
      · rw [Run.extend_len]
        omega
      · rw [Run.extend_old]
        exact hearly hk
    · simpa [Block.oldLen, Block.newLen, hlen, Nat.add_assoc] using hrest
  · rename_i hk _
    have hlen := Edit.run_len_of_insert (e := e) hk
    obtain ⟨rfl, hold, hpos⟩ := (Edit.fits_insert hk).mp hfits
    rw [hold] at h
    refine ⟨⟨by simp, fun r hr => ?_, by simp⟩, ?_⟩
    · obtain rfl := Option.some.inj hr
      exact ⟨rfl, by omega, fun _ => hearly hk⟩
    · simpa [Block.oldLen, Block.newLen, hlen] using h

theorem blocks_laid (h : Firm a b i j edits i' j') : Laid a b i j (blocks edits) i' j' := by
  induction edits generalizing i j with
  | nil => exact h
  | cons e edits ih => exact joinBlocks_laid h.1 (ih h.2)

theorem alternate_cons : Alternate (x :: xs) ↔
    (∀ y ∈ xs.head?, x.isKeep ≠ y.isKeep) ∧ Alternate xs :=
  List.isChain_cons

theorem Alternate.replace (h : Alternate (x :: xs)) (hk : y.isKeep = x.isKeep) :
    Alternate (y :: xs) := by
  rw [alternate_cons] at h ⊢
  rwa [hk]

theorem alternate_congr (h : xs.map Block.isKeep = ys.map Block.isKeep) :
    Alternate xs ↔ Alternate ys := by
  have hmap (xs : List Block) : Alternate xs ↔ (xs.map Block.isKeep).IsChain (· ≠ ·) :=
    (List.isChain_map Block.isKeep).symm
  rw [hmap, hmap, h]

theorem Alternate.keep {r : Run} (h : Alternate xs) (hne : ∀ r' rest, xs ≠ .keep r' :: rest) :
    Alternate (.keep r :: xs) := by
  refine alternate_cons.mpr ⟨fun y hy => ?_, h⟩
  cases y with
  | keep r' =>
    obtain ⟨rest, rfl⟩ := List.head?_eq_some_iff.mp hy
    exact absurd rfl (hne r' rest)
  | change removed added => exact nofun

theorem Alternate.change {removed added : Option Run} (h : Alternate xs)
    (hne : ∀ removed' added' rest, xs ≠ .change removed' added' :: rest) :
    Alternate (.change removed added :: xs) := by
  refine alternate_cons.mpr ⟨fun y hy => ?_, h⟩
  cases y with
  | keep r => exact nofun
  | change removed' added' =>
    obtain ⟨rest, rfl⟩ := List.head?_eq_some_iff.mp hy
    exact absurd rfl (hne removed' added' rest)

theorem joinBlocks_alternate (e : Edit) (h : Alternate xs) : Alternate (e.joinBlocks xs) := by
  unfold Edit.joinBlocks
  split
  · exact h.replace rfl
  · rename_i hother
    exact h.keep hother
  · exact h.replace rfl
  · rename_i hother
    exact h.change hother
  · exact h.replace rfl
  · rename_i hother
    exact h.change hother

theorem blocks_alternate (edits : List Edit) : Alternate (blocks edits) := by
  induction edits with
  | nil => exact List.IsChain.nil
  | cons e edits ih => exact joinBlocks_alternate e ih

/-- Hunks between `i` and `i'` on the old side and `j` and `j'` on the new one. Between them lines
are kept, and each begins with kept lines, unless it begins the texts. -/
inductive Spaced (a b : Array α) : Nat → Nat → List (List Block) → Nat → Nat → Prop
  | done {i j g : Nat} (hgap : Agree a b i j g) : Spaced a b i j [] (i + g) (j + g)
  | hunk {i j g m n i' j' : Nat} {hunk : List Block} {hs : List (List Block)}
      (hgap : Agree a b i j g) (hlaid : Laid a b (i + g) (j + g) hunk m n)
      (hstart : (∀ x ∈ hunk.head?, x.isKeep = true) ∨ i + g = 0) (hrest : Spaced a b m n hs i' j') :
      Spaced a b i j (hunk :: hs) i' j'

theorem Spaced.after (hgap : Agree a b i j g) (h : Spaced a b (i + g) (j + g) hs i' j') :
    Spaced a b i j hs i' j' := by
  cases h with
  | done hgap' =>
    rw [Nat.add_assoc, Nat.add_assoc]
    exact .done (hgap.append hgap')
  | hunk hgap' hlaid hstart hrest =>
    rw [Nat.add_assoc] at hstart
    rw [Nat.add_assoc, Nat.add_assoc] at hlaid
    exact .hunk (hgap.append hgap') hlaid hstart hrest

theorem Spaced.until (h : Spaced a b i j hs m n) (hgap : Agree a b m n g) :
    Spaced a b i j hs (m + g) (n + g) := by
  induction h with
  | done hgap' =>
    rw [Nat.add_assoc, Nat.add_assoc]
    exact .done (hgap'.append hgap)
  | hunk hgap' hlaid hstart _ ih => exact .hunk hgap' hlaid hstart (ih hgap)

section Trimming

variable {r : Run}

theorem takeFirst_fits (h : (Block.keep r).Fits a b i j) (hn : 0 < n) :
    (Block.keep (r.takeFirst n)).Fits a b i j ∧
      Agree a b (i + (r.takeFirst n).len) (j + (r.takeFirst n).len) (r.len - n) := by
  obtain ⟨rfl, rfl, hpos, hagree⟩ := h
  have hlen : (r.takeFirst n).len + (r.len - n) = r.len := by
    simp only [Run.takeFirst]
    omega
  rw [← hlen] at hagree
  refine ⟨⟨rfl, rfl, ?_, hagree.mono (Nat.le_add_right _ _)⟩, hagree.part⟩
  simp only [Run.takeFirst]
  omega

theorem takeLast_fits (h : (Block.keep r).Fits a b i j) (hn : 0 < n) :
    Agree a b i j (r.len - n) ∧
      (Block.keep (r.takeLast n)).Fits a b (i + (r.len - n)) (j + (r.len - n)) := by
  obtain ⟨rfl, rfl, hpos, hagree⟩ := h
  have hlen : r.len - n + (r.takeLast n).len = r.len := by
    simp only [Run.takeLast]
    omega
  rw [← hlen] at hagree
  refine ⟨hagree.mono (Nat.le_add_right _ _), rfl, rfl, ?_, hagree.part⟩
  simp only [Run.takeLast]
  omega

theorem takeFirst_le (r : Run) (n : Nat) : (r.takeFirst n).len ≤ n := by
  simp only [Run.takeFirst]
  omega

theorem takeLast_le (r : Run) (n : Nat) : (r.takeLast n).len ≤ n := by
  simp only [Run.takeLast]
  omega

end Trimming

section Cutting

theorem agree_zero : Agree a b i j 0 := fun _ hk => absurd hk (Nat.not_lt_zero _)

theorem Spaced.cons (hlaid : Laid a b i j hunk m n)
    (hstart : (∀ x ∈ hunk.head?, x.isKeep = true) ∨ i = 0) (hrest : Spaced a b m n hs i' j') :
    Spaced a b i j (hunk :: hs) i' j' :=
  .hunk (g := 0) agree_zero hlaid hstart hrest

theorem closeHunk_spaced (h : Laid a b i j hunk i' j')
    (hstart : (∀ x ∈ hunk.head?, x.isKeep = true) ∨ i = 0) :
    Spaced a b i j (closeHunk hunk) i' j' := by
  unfold closeHunk
  split
  · obtain ⟨rfl, rfl⟩ := h
    exact .done (g := 0) agree_zero
  · rename_i r
    obtain ⟨⟨-, -, -, hagree⟩, rfl, rfl⟩ := h
    exact .done hagree
  · exact .cons h hstart (.done (g := 0) agree_zero)

theorem cutHunks_spaced (h : Laid a b i j hunk m n) (hrest : Laid a b m n rest i' j')
    (hstart : (∀ x ∈ (hunk ++ rest).head?, x.isKeep = true) ∨ i = 0) :
    Spaced a b i j (cutHunks hunk rest) i' j' := by
  fun_induction cutHunks hunk rest generalizing i j m n with
  | case1 hunk =>
    obtain ⟨rfl, rfl⟩ := hrest
    rw [List.append_nil] at hstart
    exact closeHunk_spaced h hstart
  | case2 hunk r rest hlong ih =>
    obtain ⟨hfits, hrest⟩ := hrest
    obtain ⟨hfirst, hgap⟩ := takeFirst_fits (n := radius) hfits (by decide)
    obtain ⟨-, hlast⟩ := takeLast_fits (n := radius) hfits (by decide)
    have hfirstLen : (r.takeFirst radius).len ≤ r.len - radius :=
      Nat.le_trans (takeFirst_le r radius) (by omega)
    have hlastLen : r.len - radius + (r.takeLast radius).len = r.len := by
      simp only [Run.takeLast]
      omega
    refine .cons (tiles_append.mpr ⟨m, n, h, hfirst, rfl, rfl⟩) ?_
      (.after (g := r.len - radius - (r.takeFirst radius).len) (hgap.mono (Nat.sub_le _ _)) ?_)
    · cases hunk with
      | nil => exact .inl fun x hx => Option.some.inj hx ▸ rfl
      | cons x hunk => exact hstart
    · simp only [Block.oldLen, Block.newLen]
      rw [Nat.add_assoc, Nat.add_assoc, Nat.add_sub_cancel' hfirstLen]
      refine ih ⟨hlast, ?_, ?_⟩ hrest (.inl fun x hx => Option.some.inj hx ▸ rfl)
      · simp only [Block.oldLen]
        rw [Nat.add_assoc, hlastLen]
      · simp only [Block.newLen]
        rw [Nat.add_assoc, hlastLen]
  | case3 hunk r rest hshort ih =>
    obtain ⟨hfits, hrest⟩ := hrest
    refine ih (tiles_append.mpr ⟨m, n, h, hfits, rfl, rfl⟩) hrest ?_
    rwa [List.append_assoc]
  | case4 hunk x rest hchange ih =>
    obtain ⟨hfits, hrest⟩ := hrest
    refine ih (tiles_append.mpr ⟨m, n, h, hfits, rfl, rfl⟩) hrest ?_
    rwa [List.append_assoc]

theorem trimLast_concat (xs : List Block) (x : Block) : trimLast (xs ++ [x]) = xs ++ match x with
    | .keep r => [.keep (r.takeFirst radius)]
    | x => [x] := by
  induction xs with
  | nil => cases x <;> rfl
  | cons y xs ih =>
    rw [List.cons_append, trimLast, ih]
    · rfl
    · simp

theorem trimLast_laid (h : Laid a b i j xs i' j') :
    ∃ m n g, Laid a b i j (trimLast xs) m n ∧ Agree a b m n g ∧ i' = m + g ∧ j' = n + g := by
  obtain rfl | ⟨xs, x, rfl⟩ := List.eq_nil_or_concat' xs
  · exact ⟨i', j', 0, h, agree_zero, rfl, rfl⟩
  · rw [trimLast_concat]
    obtain ⟨m, n, hxs, hfits, rfl, rfl⟩ := tiles_append.mp h
    cases x with
    | keep r =>
      obtain ⟨hfirst, hgap⟩ := takeFirst_fits (n := radius) hfits (by decide)
      refine ⟨_, _, _, tiles_append.mpr ⟨m, n, hxs, hfirst, rfl, rfl⟩, hgap, ?_, ?_⟩
      all_goals
        simp only [Block.oldLen, Block.newLen, Run.takeFirst]
        omega
    | change removed added =>
      exact ⟨_, _, 0, tiles_append.mpr ⟨m, n, hxs, hfits, rfl, rfl⟩, agree_zero, rfl, rfl⟩

theorem trimLast_map (xs : List Block) :
    (trimLast xs).map Block.isKeep = xs.map Block.isKeep := by
  fun_induction trimLast xs with
  | case1 => rfl
  | case2 => rfl
  | case3 x xs hne ih => rw [List.map_cons, List.map_cons, ih]

theorem trimFirst_map (xs : List Block) :
    (trimFirst xs).map Block.isKeep = xs.map Block.isKeep := by
  unfold trimFirst
  split <;> rfl

theorem trimFirst_laid (h : Laid a b 0 0 xs i' j') :
    ∃ g, Agree a b 0 0 g ∧ Laid a b g g (trimFirst xs) i' j' ∧
      (((trimFirst xs).map Block.isKeep).head? = some true ∨ g = 0) := by
  unfold trimFirst
  split
  · rename_i r rest
    obtain ⟨hfits, hrest⟩ := h
    obtain ⟨hgap, hlast⟩ := takeLast_fits (n := radius) hfits (by decide)
    rw [Nat.zero_add] at hlast
    refine ⟨_, hgap, ⟨hlast, ?_⟩, .inl rfl⟩
    have hlen : r.len - radius + (r.takeLast radius).len = r.len := by
      simp only [Run.takeLast]
      omega
    simp only [Block.oldLen, Block.newLen, Nat.zero_add] at hrest ⊢
    rwa [hlen]
  · exact ⟨0, agree_zero, h, .inr rfl⟩

theorem hunks_spaced (h : Laid a b 0 0 xs i' j') : Spaced a b 0 0 (hunks xs) i' j' := by
  obtain ⟨g, hgap, htrimmed, hstart⟩ := trimFirst_laid h
  obtain ⟨m, n, g', hlaid, hgap', rfl, rfl⟩ := trimLast_laid htrimmed
  refine .after (g := g) hgap (.until ?_ hgap')
  rw [Nat.zero_add]
  refine cutHunks_spaced (m := g) (n := g) ⟨rfl, rfl⟩ hlaid (hstart.imp_left fun hkeep x hx => ?_)
  have hhead : (trimLast (trimFirst xs)).head? = some x := hx
  rw [← trimLast_map, List.head?_map, hhead] at hkeep
  exact Option.some.inj hkeep

end Cutting

structure Trimmed (xs : List Block) : Prop where
  alternate : Alternate xs
  positive : ∀ r, .keep r ∈ xs → 0 < r.len
  first : ∀ r, xs.head? = some (.keep r) → r.len ≤ radius
  last : ∀ r, xs.getLast? = some (.keep r) → r.len ≤ radius

/-- What a hunk shows: changes, with few kept lines between them. -/
structure Trim (hunk : List Block) : Prop extends Trimmed hunk where
  short : ∀ r, .keep r ∈ hunk → r.len ≤ 2 * radius
  changed : ∃ x ∈ hunk, x.isKeep = false

theorem closeHunk_trim (h : Trimmed hunk) (hshort : ∀ r, .keep r ∈ hunk → r.len ≤ 2 * radius) :
    ∀ hunk' ∈ closeHunk hunk, Trim hunk' := by
  unfold closeHunk
  split
  · exact nofun
  · exact nofun
  · rename_i hnil hsole
    intro hunk' hh
    obtain rfl := List.mem_singleton.mp hh
    refine ⟨h, hshort, ?_⟩
    cases hunk' with
    | nil => exact absurd rfl hnil
    | cons x rest =>
      cases x with
      | change removed added => exact ⟨_, List.mem_cons_self, rfl⟩
      | keep r =>
        cases rest with
        | nil => exact absurd rfl (hsole r)
        | cons y rest =>
          have hne := (alternate_cons.mp h.alternate).1 y rfl
          refine ⟨y, List.mem_cons_of_mem _ List.mem_cons_self, ?_⟩
          exact Bool.eq_false_iff.mpr fun hy => hne hy.symm

section Long

variable {r : Run}

theorem Trimmed.ends (h : Trimmed (hunk ++ .keep r :: rest))
    (hshort : ∀ r, .keep r ∈ hunk → r.len ≤ 2 * radius) (hlong : 2 * radius < r.len) :
    Trim (hunk ++ [.keep (r.takeFirst radius)]) := by
  have hlen := takeFirst_le r radius
  have hpos : 0 < (r.takeFirst radius).len := by
    simp only [Run.takeFirst, radius] at hlong ⊢
    omega
  obtain ⟨halt, -, hjoint⟩ := List.isChain_append.mp h.alternate
  obtain rfl | ⟨xs, x, rfl⟩ := List.eq_nil_or_concat' hunk
  · have := h.first r rfl
    omega
  refine ⟨⟨?_, fun s hs => ?_, fun s hs => ?_, fun s hs => ?_⟩, fun s hs => ?_, ?_⟩
  · refine List.isChain_append.mpr ⟨halt, List.IsChain.singleton _, fun y hy z hz => ?_⟩
    obtain rfl := Option.some.inj hz
    exact hjoint y hy (.keep r) rfl
  · obtain hs | hs := List.mem_append.mp hs
    · exact h.positive s (List.mem_append_left _ hs)
    · obtain rfl := Block.keep.inj (List.mem_singleton.mp hs)
      exact hpos
  · refine h.first s ?_
    simpa using hs
  · rw [List.getLast?_concat] at hs
    obtain rfl := Block.keep.inj (Option.some.inj hs)
    exact hlen
  · obtain hs | hs := List.mem_append.mp hs
    · exact hshort s hs
    · obtain rfl := Block.keep.inj (List.mem_singleton.mp hs)
      omega
  · have hne := hjoint x (List.getLast?_concat ..) _ rfl
    refine ⟨x, by simp, Bool.eq_false_iff.mpr hne⟩

theorem Trimmed.begins (h : Trimmed (hunk ++ .keep r :: rest)) (hlong : 2 * radius < r.len) :
    Trimmed (.keep (r.takeLast radius) :: rest) := by
  have hlen := takeLast_le r radius
  have hpos : 0 < (r.takeLast radius).len := by
    simp only [Run.takeLast, radius] at hlong ⊢
    omega
  have halt : Alternate (.keep r :: rest) := h.alternate.right_of_append
  refine ⟨halt.replace rfl, fun s hs => ?_, fun s hs => ?_, fun s hs => ?_⟩
  · obtain hs | hs := List.mem_cons.mp hs
    · obtain rfl := Block.keep.inj hs
      exact hpos
    · exact h.positive s (List.mem_append_right _ (List.mem_cons_of_mem _ hs))
  · obtain rfl := Block.keep.inj (Option.some.inj hs)
    exact hlen
  · cases rest with
    | nil =>
      obtain rfl := Block.keep.inj (Option.some.inj hs)
      exact hlen
    | cons y rest =>
      refine h.last s ?_
      rw [List.getLast?_append, List.getLast?_cons_cons, ← List.getLast?_cons_cons, hs]
      rfl

end Long

theorem cutHunks_trim (h : Trimmed (hunk ++ rest))
    (hshort : ∀ r, .keep r ∈ hunk → r.len ≤ 2 * radius) :
    ∀ hunk' ∈ cutHunks hunk rest, Trim hunk' := by
  fun_induction cutHunks hunk rest with
  | case1 hunk =>
    rw [List.append_nil] at h
    exact closeHunk_trim h hshort
  | case2 hunk r rest hlong ih =>
    intro hunk' hh
    obtain rfl | hh := List.mem_cons.mp hh
    · exact h.ends hshort hlong
    · refine ih (h.begins hlong) (fun s hs => ?_) hunk' hh
      obtain rfl := Block.keep.inj (List.mem_singleton.mp hs)
      exact Nat.le_trans (takeLast_le r radius) (by decide)
  | case3 hunk r rest hle ih =>
    refine ih ?_ fun s hs => ?_
    · rwa [List.append_assoc]
    · obtain hs | hs := List.mem_append.mp hs
      · exact hshort s hs
      · obtain rfl := Block.keep.inj (List.mem_singleton.mp hs)
        omega
  | case4 hunk x rest hchange ih =>
    refine ih ?_ fun s hs => ?_
    · rwa [List.append_assoc]
    · obtain hs | hs := List.mem_append.mp hs
      · exact hshort s hs
      · exact absurd (List.mem_singleton.mp hs).symm (hchange s)

theorem laid_positive (h : Laid a b i j xs i' j') : ∀ r, .keep r ∈ xs → 0 < r.len := by
  induction xs generalizing i j with
  | nil => exact nofun
  | cons x xs ih =>
    intro r hr
    obtain rfl | hr := List.mem_cons.mp hr
    · exact h.1.2.2.1
    · exact ih h.2 r hr

theorem trimFirst_first (r : Run) (h : (trimFirst xs).head? = some (.keep r)) :
    r.len ≤ radius := by
  unfold trimFirst at h
  split at h
  · obtain rfl := Block.keep.inj (Option.some.inj h)
    exact takeLast_le _ _
  · rename_i hne
    obtain ⟨rest, rfl⟩ := List.head?_eq_some_iff.mp h
    exact absurd rfl (hne r rest)

theorem trimLast_first (h : ∀ r, xs.head? = some (.keep r) → r.len ≤ radius) (r : Run)
    (hr : (trimLast xs).head? = some (.keep r)) : r.len ≤ radius := by
  unfold trimLast at hr
  split at hr
  · cases hr
  · obtain rfl := Block.keep.inj (Option.some.inj hr)
    exact takeFirst_le _ _
  · exact h r hr

theorem trimLast_last (r : Run) (h : (trimLast xs).getLast? = some (.keep r)) :
    r.len ≤ radius := by
  obtain rfl | ⟨xs, x, rfl⟩ := List.eq_nil_or_concat' xs
  · cases h
  · rw [trimLast_concat] at h
    cases x with
    | keep s =>
      rw [List.getLast?_concat] at h
      obtain rfl := Block.keep.inj (Option.some.inj h)
      exact takeFirst_le _ _
    | change removed added =>
      rw [List.getLast?_concat] at h
      cases h

theorem hunks_trim (h : Laid a b 0 0 xs i' j') (halt : Alternate xs) :
    ∀ hunk ∈ hunks xs, Trim hunk := by
  obtain ⟨g, -, htrimmed, -⟩ := trimFirst_laid h
  obtain ⟨m, n, g', hlaid, -⟩ := trimLast_laid htrimmed
  refine cutHunks_trim ⟨?_, laid_positive hlaid, ?_, ?_⟩ nofun
  · exact (alternate_congr ((trimLast_map _).trans (trimFirst_map _))).mpr halt
  · exact trimLast_first fun r => trimFirst_first r
  · exact trimLast_last

end Refit.Diff
