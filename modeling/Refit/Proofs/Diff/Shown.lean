import Refit.Diff.Unified
import Refit.Proofs.Diff.Hunks
import Refit.Proofs.Diff.Reading

namespace Refit.Diff

variable {a b : Array (List Char)} {i j i' j' m n : Nat} {x : Block} {xs hunk : List Block}
  {hs : List (List Block)}

def markLines (kind : Kind) (lines : Array (List Char)) (start len : Nat) :
    List (Kind × List Char) :=
  (lines.extract start (start + len)).toList.map fun line => (kind, line)

def blockLines (a b : Array (List Char)) : Block → List (Kind × List Char)
  | .keep r => markLines .keep a r.old r.len
  | .change removed added =>
    (removed.map fun r => markLines .remove a r.old r.len).getD [] ++
      (added.map fun r => markLines .insert b r.new r.len).getD []

def hunkBody (a b : Array (List Char)) (hunk : List Block) : List (Kind × List Char) :=
  hunk.flatMap (blockLines a b)

theorem hunkBody_cons (a b : Array (List Char)) (x : Block) (hunk : List Block) :
    hunkBody a b (x :: hunk) = blockLines a b x ++ hunkBody a b hunk := by
  rw [hunkBody, List.flatMap_cons, hunkBody]

theorem linesBut_append (kind : Kind) (xs ys : List (Kind × List Char)) :
    linesBut kind (xs ++ ys) = linesBut kind xs ++ linesBut kind ys := by
  simp [linesBut]

theorem linesBut_map {kind k : Kind} (hk : k ≠ kind) (lines : List (List Char)) :
    linesBut kind (lines.map fun line => (k, line)) = lines := by
  induction lines with
  | nil => rfl
  | cons line lines ih => simpa [linesBut, hk] using ih

theorem linesBut_map_self (kind : Kind) (lines : List (List Char)) :
    linesBut kind (lines.map fun line => (kind, line)) = [] := by
  induction lines with
  | nil => rfl
  | cons line lines ih => simp [linesBut]

theorem getElem?_extract_add {α : Type} (xs : Array α) (i n k : Nat) :
    (xs.extract i (i + n))[k]? = if k < n then xs[i + k]? else none := by
  rw [Array.getElem?_extract]
  split <;> split
  · rfl
  · omega
  · exact (Array.getElem?_eq_none (by omega)).symm
  · rfl

theorem Agree.extract (h : Agree a b i j n) : a.extract i (i + n) = b.extract j (j + n) := by
  refine Array.ext_getElem? fun k => ?_
  rw [getElem?_extract_add, getElem?_extract_add]
  by_cases hk : k < n
  · rw [if_pos hk, if_pos hk, h k hk]
  · rw [if_neg hk, if_neg hk]

theorem oldLines_block (h : x.Fits a b i j) :
    linesBut .insert (blockLines a b x) = (a.extract i (i + x.oldLen)).toList := by
  cases x with
  | keep r =>
    obtain ⟨rfl, -⟩ := h
    exact linesBut_map (by decide) _
  | change removed added =>
    obtain ⟨hremoved, -, -⟩ := h
    have hadded : linesBut .insert ((added.map fun r => markLines .insert b r.new r.len).getD []) =
        [] := by
      cases added with
      | none => rfl
      | some r => exact linesBut_map_self _ _
    rw [blockLines, linesBut_append, hadded, List.append_nil]
    cases removed with
    | none => simp [linesBut, Block.oldLen]
    | some r =>
      obtain ⟨rfl, -⟩ := hremoved r rfl
      exact linesBut_map (by decide) _

theorem newLines_block (h : x.Fits a b i j) :
    linesBut .remove (blockLines a b x) = (b.extract j (j + x.newLen)).toList := by
  cases x with
  | keep r =>
    obtain ⟨rfl, rfl, -, hagree⟩ := h
    rw [Block.newLen, ← hagree.extract]
    exact linesBut_map (by decide) _
  | change removed added =>
    obtain ⟨-, hadded, -⟩ := h
    have hremoved : linesBut .remove ((removed.map fun r => markLines .remove a r.old r.len).getD
        []) = [] := by
      cases removed with
      | none => rfl
      | some r => exact linesBut_map_self _ _
    rw [blockLines, linesBut_append, hremoved, List.nil_append]
    cases added with
    | none => simp [linesBut, Block.newLen]
    | some r =>
      obtain ⟨rfl, -⟩ := hadded r rfl
      exact linesBut_map (by decide) _

theorem extract_append (lines : Array (List Char)) {i m k : Nat} (him : i ≤ m) (hmk : m ≤ k) :
    (lines.extract i m).toList ++ (lines.extract m k).toList = (lines.extract i k).toList := by
  rw [← Array.toList_append, Array.extract_append_extract, Nat.min_eq_left him,
    Nat.max_eq_right hmk]

theorem tiles_le {β : Type} {fits : Nat → Nat → β → Prop} {oldLen newLen : β → Nat} {xs : List β}
    (h : Tiles fits oldLen newLen i j xs i' j') : i ≤ i' ∧ j ≤ j' := by
  induction xs generalizing i j with
  | nil => exact ⟨h.1.le, h.2.le⟩
  | cons x xs ih =>
    obtain ⟨hi, hj⟩ := ih h.2
    omega

theorem oldLines_hunkBody (h : Laid a b i j hunk m n) :
    linesBut .insert (hunkBody a b hunk) = (a.extract i m).toList := by
  induction hunk generalizing i j with
  | nil =>
    obtain ⟨rfl, rfl⟩ := h
    simp [hunkBody, linesBut]
  | cons x hunk ih =>
    obtain ⟨hfits, hrest⟩ := h
    rw [hunkBody_cons, linesBut_append, oldLines_block hfits, ih hrest,
      extract_append _ (Nat.le_add_right _ _) (tiles_le hrest).1]

theorem newLines_hunkBody (h : Laid a b i j hunk m n) :
    linesBut .remove (hunkBody a b hunk) = (b.extract j n).toList := by
  induction hunk generalizing i j with
  | nil =>
    obtain ⟨rfl, rfl⟩ := h
    simp [hunkBody, linesBut]
  | cons x hunk ih =>
    obtain ⟨hfits, hrest⟩ := h
    rw [hunkBody_cons, linesBut_append, newLines_block hfits, ih hrest,
      extract_append _ (Nat.le_add_right _ _) (tiles_le hrest).2]

def Block.kinds : Block → List Kind
  | keep r => List.replicate r.len .keep
  | change removed added =>
    List.replicate ((removed.map Run.len).getD 0) .remove ++
      List.replicate ((added.map Run.len).getD 0) .insert

theorem markLines_kinds (kind : Kind) {lines : Array (List Char)} {start len : Nat}
    (h : start + len ≤ lines.size) :
    (markLines kind lines start len).map Prod.fst = List.replicate len kind := by
  have hlen : (lines.extract start (start + len)).toList.length = len := by
    rw [Array.length_toList, Array.size_extract]
    omega
  rw [markLines, List.map_map]
  exact List.map_const'.trans (congrArg (List.replicate · kind) hlen)

theorem blockLines_kinds (h : x.Fits a b i j) (hold : i + x.oldLen ≤ a.size)
    (hnew : j + x.newLen ≤ b.size) : (blockLines a b x).map Prod.fst = x.kinds := by
  cases x with
  | keep r =>
    obtain ⟨rfl, -⟩ := h
    exact markLines_kinds _ hold
  | change removed added =>
    obtain ⟨hremoved, hadded, -⟩ := h
    have hold' : ((removed.map fun r => markLines .remove a r.old r.len).getD []).map Prod.fst =
        List.replicate ((removed.map Run.len).getD 0) .remove := by
      cases removed with
      | none => rfl
      | some r =>
        obtain ⟨rfl, -⟩ := hremoved r rfl
        exact markLines_kinds _ hold
    have hnew' : ((added.map fun r => markLines .insert b r.new r.len).getD []).map Prod.fst =
        List.replicate ((added.map Run.len).getD 0) .insert := by
      cases added with
      | none => rfl
      | some r =>
        obtain ⟨rfl, -⟩ := hadded r rfl
        exact markLines_kinds _ hnew
    rw [blockLines, List.map_append, hold', hnew', Block.kinds]

theorem hunkBody_kinds (h : Laid a b i j hunk m n) (hm : m ≤ a.size) (hn : n ≤ b.size) :
    (hunkBody a b hunk).map Prod.fst = hunk.flatMap Block.kinds := by
  induction hunk generalizing i j with
  | nil => rfl
  | cons x hunk ih =>
    obtain ⟨hfits, hrest⟩ := h
    obtain ⟨hold, hnew⟩ := tiles_le hrest
    rw [hunkBody_cons, List.map_append, ih hrest, List.flatMap_cons,
      blockLines_kinds hfits (by omega) (by omega)]

/-- A block has lines, which are kept or changed as it is. -/
def Block.Solid (x : Block) : Prop := x.kinds ≠ [] ∧ ∀ k ∈ x.kinds, k = .keep ↔ x.isKeep = true

theorem Block.Fits.solid (h : x.Fits a b i j) : x.Solid := by
  cases x with
  | keep r =>
    obtain ⟨-, -, hlen, -⟩ := h
    refine ⟨fun hnil => hlen.ne' ((List.replicate_eq_nil_iff _).mp hnil), fun k hk => ?_⟩
    rw [List.eq_of_mem_replicate hk]
    exact ⟨fun _ => rfl, fun _ => rfl⟩
  | change removed added =>
    obtain ⟨hremoved, hadded, hsome⟩ := h
    refine ⟨fun hnil => ?_, fun k hk => ⟨fun hkeep => ?_, nofun⟩⟩
    · obtain ⟨hnone, hnone'⟩ := List.append_eq_nil_iff.mp hnil
      rw [List.replicate_eq_nil_iff] at hnone hnone'
      cases removed with
      | some r => exact absurd hnone (hremoved r rfl).2.ne'
      | none =>
        cases added with
        | some r => exact absurd hnone' (hadded r rfl).2.1.ne'
        | none => exact absurd rfl (hsome rfl)
    · obtain hk | hk := List.mem_append.mp hk
      · cases hkeep.symm.trans (List.eq_of_mem_replicate hk)
      · cases hkeep.symm.trans (List.eq_of_mem_replicate hk)

theorem laid_solid (h : Laid a b i j xs m n) : ∀ x ∈ xs, x.Solid := by
  induction xs generalizing i j with
  | nil => exact nofun
  | cons x xs ih =>
    intro y hy
    obtain rfl | hy := List.mem_cons.mp hy
    · exact h.1.solid
    · exact ih h.2 y hy

theorem Block.Solid.first (h : x.Solid) (xs : List Block) :
    ∃ k ∈ ((x :: xs).flatMap kinds).head?, k = .keep ↔ x.isKeep = true := by
  rw [List.flatMap_cons, List.head?_append_of_ne_nil _ h.1]
  exact ⟨_, List.head?_eq_some_head h.1, h.2 _ (List.head_mem h.1)⟩

theorem Block.Solid.last (h : x.Solid) (xs : List Block) :
    ∃ k ∈ ((xs ++ [x]).flatMap kinds).getLast?, k = .keep ↔ x.isKeep = true := by
  rw [List.flatMap_append, List.flatMap_singleton, List.getLast?_append_of_ne_nil _ h.1]
  exact ⟨_, List.getLast?_eq_some_getLast h.1, h.2 _ (List.getLast_mem h.1)⟩

theorem flatMap_eq_append_cons {α β : Type} {f : α → List β} {xs : List α} {before after : List β}
    {y : β} (h : xs.flatMap f = before ++ y :: after) : ∃ ws x zs u v, xs = ws ++ x :: zs ∧
      f x = u ++ y :: v ∧ before = ws.flatMap f ++ u ∧ after = v ++ zs.flatMap f := by
  induction xs generalizing before with
  | nil => simp at h
  | cons x xs ih =>
    rw [List.flatMap_cons] at h
    obtain ⟨before', rfl, hrest⟩ | ⟨u, hx, hu⟩ := List.append_eq_append_iff.mp h
    · obtain ⟨ws, z, zs, u, v, rfl, hz, rfl, rfl⟩ := ih hrest
      exact ⟨x :: ws, z, zs, u, v, rfl, hz, by simp, rfl⟩
    · cases u with
      | nil =>
        rw [List.append_nil] at hx
        have hrest : xs.flatMap f = [] ++ y :: after := hu.symm
        obtain ⟨ws, z, zs, u, v, rfl, hz, hbefore, rfl⟩ := ih hrest
        refine ⟨x :: ws, z, zs, u, v, rfl, hz, ?_, rfl⟩
        rw [List.flatMap_cons, List.append_assoc, ← hbefore, List.append_nil, hx]
      | cons y' u =>
        obtain ⟨rfl, rfl⟩ := List.cons.inj hu
        exact ⟨[], x, xs, before, u, rfl, hx, rfl, rfl⟩

theorem exists_take {u more : List Kind} (hu : u.length < 3)
    (hmore : ∃ k ∈ more.head?, k ≠ .keep) : ∃ k ∈ (u ++ more).take 3, k ≠ .keep := by
  obtain ⟨k, hk, hne⟩ := hmore
  obtain ⟨more, rfl⟩ := List.head?_eq_some_iff.mp hk
  refine ⟨k, ?_, hne⟩
  obtain ⟨d, hd⟩ : ∃ d, 3 - u.length = d + 1 := ⟨2 - u.length, by omega⟩
  rw [List.take_append, hd, List.take_succ_cons]
  exact List.mem_append_right _ List.mem_cons_self

theorem Trim.close (h : Trim hunk) (hsolid : ∀ x ∈ hunk, x.Solid) {before after : List Kind}
    (heq : hunk.flatMap Block.kinds = before ++ .keep :: after) :
    ∃ k ∈ before.reverse.take 3 ++ after.take 3, k ≠ .keep := by
  obtain ⟨xs, x, ys, u, v, rfl, hx, rfl, rfl⟩ := flatMap_eq_append_cons heq
  have hkeep : x.isKeep = true := ((hsolid x (by simp)).2 .keep (by simp [hx])).mp rfl
  obtain ⟨r, rfl⟩ : ∃ r, x = .keep r := by
    cases x with
    | keep r => exact ⟨r, rfl⟩
    | change removed added => cases hkeep
  have hlen : r.len = u.length + (v.length + 1) := by
    have := congrArg List.length hx
    rwa [Block.kinds, List.length_replicate, List.length_append, List.length_cons] at this
  obtain ⟨-, hright, hjoint⟩ := List.isChain_append.mp h.alternate
  -- Where the blocks before or after a run are changes, a line close to them sees them.
  have hbefore (hxs : xs ≠ []) (hu : u.length < 3) :
      ∃ k ∈ (xs.flatMap Block.kinds ++ u).reverse.take 3, k ≠ .keep := by
    obtain rfl | ⟨xs, y, rfl⟩ := List.eq_nil_or_concat' xs
    · exact absurd rfl hxs
    obtain ⟨k, hk, hiff⟩ := (hsolid y (by simp)).last xs
    rw [List.reverse_append]
    refine exists_take (by rwa [List.length_reverse]) ⟨k, ?_, fun he => ?_⟩
    · rwa [List.head?_reverse]
    · exact hjoint y (List.getLast?_concat ..) _ rfl (hiff.mp he)
  have hafter (hys : ys ≠ []) (hv : v.length < 3) :
      ∃ k ∈ (v ++ ys.flatMap Block.kinds).take 3, k ≠ .keep := by
    cases ys with
    | nil => exact absurd rfl hys
    | cons y ys =>
      obtain ⟨k, hk, hiff⟩ := (hsolid y (by simp)).first ys
      refine exists_take hv ⟨k, hk, fun he => ?_⟩
      exact (alternate_cons.mp hright).1 y rfl (hiff.mp he).symm
  have hnear : (xs ≠ [] ∧ u.length < 3) ∨ (ys ≠ [] ∧ v.length < 3) := by
    have hshort := h.short r (by simp)
    have hfirst := h.first r
    have hlast := h.last r
    have hchanged := h.changed
    simp only [radius] at hshort hfirst hlast
    cases xs with
    | nil =>
      have hr := hfirst rfl
      cases ys with
      | nil => simp [Block.isKeep] at hchanged
      | cons y ys => exact .inr ⟨nofun, by omega⟩
    | cons z xs =>
      cases ys with
      | nil =>
        have hr := hlast (List.getLast?_concat ..)
        exact .inl ⟨nofun, by omega⟩
      | cons y ys =>
        obtain hu | hv : u.length < 3 ∨ v.length < 3 := by omega
        · exact .inl ⟨nofun, hu⟩
        · exact .inr ⟨nofun, hv⟩
  obtain ⟨hxs, hu⟩ | ⟨hys, hv⟩ := hnear
  · obtain ⟨k, hk, hne⟩ := hbefore hxs hu
    exact ⟨k, List.mem_append_left _ hk, hne⟩
  · obtain ⟨k, hk, hne⟩ := hafter hys hv
    exact ⟨k, List.mem_append_right _ hk, hne⟩

def printed (a b : Array (List Char)) (hunk : List Block) : Hunk :=
  ⟨(headerOf hunk).1, (headerOf hunk).2, hunkBody a b hunk⟩

theorem Block.Fits.oldStart (h : x.Fits a b i j) (hx : x.isKeep = true ∨ i = 0) :
    x.oldStart = i := by
  cases x with
  | keep r => exact h.1
  | change removed added =>
    obtain ⟨hremoved, hadded, hsome⟩ := h
    obtain rfl := hx.resolve_left nofun
    cases removed with
    | some r => exact (hremoved r rfl).1
    | none =>
      cases added with
      | some r => exact Nat.le_zero.mp ((hadded r rfl).2.2 rfl)
      | none => exact absurd rfl (hsome rfl)

theorem Block.Fits.oldStart_or (h : x.Fits a b i j) :
    x.oldStart = i ∨ ∃ r, x = .change none (some r) := by
  cases x with
  | keep r => exact .inl h.1
  | change removed added =>
    obtain ⟨hremoved, -, hsome⟩ := h
    cases removed with
    | some r => exact .inl (hremoved r rfl).1
    | none =>
      cases added with
      | some r => exact .inr ⟨r, rfl⟩
      | none => exact absurd rfl (hsome rfl)

theorem Block.Fits.newStart_or (h : x.Fits a b i j) :
    x.newStart = j ∨ ∃ r, x = .change (some r) none := by
  cases x with
  | keep r => exact .inl h.2.1
  | change removed added =>
    obtain ⟨-, hadded, hsome⟩ := h
    cases added with
    | some r =>
      have hr := (hadded r rfl).1
      cases removed <;> exact .inl hr
    | none =>
      cases removed with
      | some r => exact .inr ⟨r, rfl⟩
      | none => exact absurd rfl (hsome rfl)

theorem only_leading {kind : Kind} {len : Nat} {more : List Kind} (hkind : kind ≠ .keep)
    (hlen : List.replicate len kind ≠ []) (hmore : ∀ k ∈ more.head?, k = .keep) :
    Only kind (leading (List.replicate len kind ++ more)) := by
  have hall : ∀ k ∈ List.replicate len kind, decide (k ≠ .keep) = true := by
    intro k hk
    rw [List.eq_of_mem_replicate hk]
    exact decide_eq_true hkind
  have hstop : more.takeWhile (· ≠ .keep) = [] := by
    cases more with
    | nil => rfl
    | cons k more =>
      rw [hmore k rfl]
      rfl
  rw [leading, List.takeWhile_append_of_pos hall, hstop, List.append_nil]
  exact ⟨hlen, fun k => List.eq_of_mem_replicate⟩

theorem only_leading_kinds {kind : Kind} {len : Nat} (hkind : kind ≠ .keep)
    (hsolid : ∀ y ∈ x :: xs, y.Solid) (hx : x.isKeep = false) (halt : Alternate (x :: xs))
    (hkinds : x.kinds = List.replicate len kind) :
    Only kind (leading ((x :: xs).flatMap Block.kinds)) := by
  have hne := (hsolid x List.mem_cons_self).1
  rw [hkinds] at hne
  rw [List.flatMap_cons, hkinds]
  refine only_leading hkind hne fun k hk => ?_
  cases xs with
  | nil => cases hk
  | cons y xs =>
    obtain ⟨k', hk', hiff⟩ := (hsolid y (by simp)).first xs
    obtain rfl := Option.some.inj (hk.symm.trans hk')
    have hy := (alternate_cons.mp halt).1 y rfl
    rw [hx] at hy
    exact hiff.mpr (eq_true_of_ne_false hy.symm)

theorem only_trailing_kinds {kind : Kind} {len : Nat} (hkind : kind ≠ .keep)
    (hsolid : ∀ y ∈ xs ++ [x], y.Solid) (hx : x.isKeep = false) (halt : Alternate (xs ++ [x]))
    (hkinds : x.kinds = List.replicate len kind) :
    Only kind (trailing ((xs ++ [x]).flatMap Block.kinds)) := by
  have hne := (hsolid x (by simp)).1
  rw [hkinds] at hne
  rw [trailing, List.flatMap_append, List.flatMap_singleton, List.reverse_append, hkinds,
    List.reverse_replicate]
  refine only_leading hkind hne fun k hk => ?_
  rw [List.head?_reverse] at hk
  obtain rfl | ⟨xs, y, rfl⟩ := List.eq_nil_or_concat' xs
  · cases hk
  · obtain ⟨k', hk', hiff⟩ := (hsolid y (by simp)).last xs
    obtain rfl := Option.some.inj (hk.symm.trans hk')
    have hy := (List.isChain_append.mp halt).2.2 y (List.getLast?_concat ..) x rfl
    rw [hx] at hy
    exact hiff.mpr (eq_true_of_ne_false hy)

theorem printed_headed (h : Laid a b i j hunk m n) (htrim : Trim hunk) (hm : m ≤ a.size)
    (hn : n ≤ b.size) (hstart : (∀ x ∈ hunk.head?, x.isKeep = true) ∨ i = 0) :
    (printed a b hunk).Headed ⟨⟨i, m - i⟩, ⟨j, n - j⟩, hunkBody a b hunk⟩ := by
  have hsolid := laid_solid h
  have hkinds : (printed a b hunk).kinds = hunk.flatMap Block.kinds := hunkBody_kinds h hm hn
  obtain ⟨x, xs, rfl⟩ : ∃ x xs, hunk = x :: xs := by
    obtain ⟨x, hx, -⟩ := htrim.changed
    exact List.exists_cons_of_ne_nil (List.ne_nil_of_mem hx)
  obtain ⟨init, last, hinit⟩ := (List.eq_nil_or_concat' (x :: xs)).resolve_left nofun
  have hheader : headerOf (x :: xs) = (⟨x.oldStart, last.oldStart + last.oldLen - x.oldStart⟩,
      ⟨x.newStart, last.newStart + last.newLen - x.newStart⟩) := by
    refine headerOf_eq rfl ?_
    rw [hinit, List.getLast?_concat]
  obtain ⟨p, q, -, hlast, rfl, rfl⟩ : ∃ p q, Laid a b i j init p q ∧ last.Fits a b p q ∧
      p + last.oldLen = m ∧ q + last.newLen = n := by
    rw [hinit] at h
    exact tiles_append.mp h
  have hfirst : x.Fits a b i j := h.1
  have holdStart : x.oldStart = i :=
    hfirst.oldStart (hstart.imp_left fun hkeep => hkeep x rfl)
  have hnewStart (hno : ¬ Only .remove (leading (printed a b (x :: xs)).kinds)) :
      x.newStart = j := by
    refine hfirst.newStart_or.resolve_right ?_
    rintro ⟨r, rfl⟩
    refine hno ?_
    rw [hkinds]
    exact only_leading_kinds (by decide) hsolid rfl htrim.alternate (List.append_nil _)
  refine ⟨rfl, ?_, fun hno => ?_, fun hno => ?_, fun hno hno' => ?_⟩
  · simp only [printed, hheader, holdStart]
  · have hend : last.oldStart = p := by
      refine hlast.oldStart_or.resolve_right ?_
      rintro ⟨r, rfl⟩
      refine hno ?_
      rw [hkinds, hinit]
      exact only_trailing_kinds (by decide) (hinit ▸ hsolid) rfl (hinit ▸ htrim.alternate) rfl
    simp only [printed, hheader, holdStart, hend]
  · simp only [printed, hheader, hnewStart hno]
  · have hend : last.newStart = q := by
      refine hlast.newStart_or.resolve_right ?_
      rintro ⟨r, rfl⟩
      refine hno' ?_
      rw [hkinds, hinit]
      exact only_trailing_kinds (by decide) (hinit ▸ hsolid) rfl (hinit ▸ htrim.alternate)
        (List.append_nil _)
    simp only [printed, hheader, hnewStart hno, hend]

theorem Spaced.le (h : Spaced a b i j hs i' j') : i ≤ i' ∧ j ≤ j' := by
  induction h with
  | done hgap => exact ⟨Nat.le_add_right _ _, Nat.le_add_right _ _⟩
  | hunk hgap hlaid hstart hrest ih =>
    obtain ⟨hi, hj⟩ := tiles_le hlaid
    omega

theorem Spaced.laid (h : Spaced a b i j hs i' j') (hhunk : hunk ∈ hs) :
    ∃ i j m n, Laid a b i j hunk m n ∧ m ≤ i' ∧ n ≤ j' := by
  induction h with
  | done hgap => cases hhunk
  | hunk hgap hlaid hstart hrest ih =>
    obtain rfl | hhunk := List.mem_cons.mp hhunk
    · exact ⟨_, _, _, _, hlaid, hrest.le⟩
    · exact ih hhunk

theorem drop_eq (lines : Array (List Char)) (h : i ≤ m) :
    lines.toList.drop i = (lines.extract i m).toList ++ lines.toList.drop m := by
  rw [Array.toList_extract, List.extract_eq_take_drop]
  conv_lhs => rw [← List.take_append_drop (m - i) (lines.toList.drop i)]
  rw [List.drop_drop, Nat.add_sub_cancel' h]

/-- Hunks that lie between two texts lead from one to the other, where they are placed. -/
theorem Spaced.aligned (h : Spaced a b i j hs i' j') (hi : i' = a.size) (hj : j' = b.size)
    (htrim : ∀ hunk ∈ hs, Trim hunk) : ∃ placed,
      Aligned i j placed (a.toList.drop i) (b.toList.drop j) ∧
        List.Forall₂ Hunk.Headed (hs.map (printed a b)) placed := by
  induction h with
  | @done i j g hgap =>
    refine ⟨[], ?_, .nil⟩
    have hall := congrArg Array.toList hgap.extract
    rw [Aligned, drop_eq a (Nat.le_add_right i g), drop_eq b (Nat.le_add_right j g), hall, hi, hj,
      ← Array.length_toList, ← Array.length_toList, List.drop_length, List.drop_length]
  | @hunk i j g m n i' j' hunk hs hgap hlaid hstart hrest ih =>
    obtain ⟨placed, haligned, hheaded⟩ := ih hi hj fun hunk' hh =>
      htrim hunk' (List.mem_cons_of_mem _ hh)
    obtain ⟨hm, hn⟩ := hrest.le
    obtain ⟨hgm, hgn⟩ := tiles_le hlaid
    have hold : (a.extract (i + g) m).toList.length = m - (i + g) := by
      rw [Array.length_toList, Array.size_extract]
      omega
    have hnew : (b.extract (j + g) n).toList.length = n - (j + g) := by
      rw [Array.length_toList, Array.size_extract]
      omega
    have hgaplen : (a.extract i (i + g)).toList.length = g := by
      rw [Array.length_toList, Array.size_extract]
      omega
    have holdLines := oldLines_hunkBody hlaid
    have hnewLines := newLines_hunkBody hlaid
    refine ⟨⟨⟨i + g, m - (i + g)⟩, ⟨j + g, n - (j + g)⟩, hunkBody a b hunk⟩ :: placed,
      ⟨(a.extract i (i + g)).toList, a.toList.drop m, b.toList.drop n, ?_, ?_, ?_, ?_, ?_⟩,
      .cons (printed_headed hlaid (htrim hunk List.mem_cons_self) (by omega) (by omega) hstart)
        hheaded⟩
    · rw [Hunk.oldLines, holdLines, ← drop_eq a hgm, ← drop_eq a (Nat.le_add_right i g)]
    · rw [Hunk.newLines, hnewLines, ← drop_eq b hgn, hgap.extract,
        ← drop_eq b (Nat.le_add_right j g)]
    · rw [Hunk.oldLines, holdLines, hold, hgaplen]
    · rw [Hunk.newLines, hnewLines, hnew, hgaplen]
    · rw [Hunk.oldLines, holdLines, hold, Hunk.newLines, hnewLines, hnew, hgaplen]
      rwa [Nat.add_sub_cancel' hgm, Nat.add_sub_cancel' hgn]

end Refit.Diff
