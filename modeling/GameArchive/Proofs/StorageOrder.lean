import GameArchive.Proofs.Relayout
/-!
# The order of storage

A replacement that is not empty leaves the order in which payloads are stored as it is. An entry
moves by the difference of sizes for each replaced entry that is stored before it, so where it comes
to lie after two replacements can be told from the order before the first of them.
-/
namespace GameArchive

/-- Where the payload lies. -/
def Entry.placement (e : Entry) : Placement :=
  ⟨e.offset, e.size⟩

attribute [ext] Placement

namespace Relayout

section Order

variable {a b c : Entry} {i j k : Nat}

theorem storedBefore_iff : storedBefore a i b j = true ↔
    a.offset < b.offset ∨ (a.offset = b.offset ∧
      ((a.size = 0 ∧ b.size ≠ 0) ∨ ((a.size = 0 ↔ b.size = 0) ∧ i < j))) := by
  have hempty : (a.size == 0) = (b.size == 0) ↔ (a.size = 0 ↔ b.size = 0) := by
    rw [Bool.eq_iff_iff, beq_iff_eq, beq_iff_eq]
  simp [storedBefore, hempty]

theorem storedBefore_asymm (h : storedBefore a i b j = true) : storedBefore b j a i = false := by
  rw [← Bool.not_eq_true]
  rw [storedBefore_iff] at h ⊢
  omega

theorem storedBefore_self : storedBefore a i a i = false := by
  rw [← Bool.not_eq_true, storedBefore_iff]
  omega

theorem storedBefore_total (hij : i ≠ j) :
    storedBefore a i b j = true ∨ storedBefore b j a i = true := by
  rw [storedBefore_iff, storedBefore_iff]
  omega

theorem storedBefore_trans (hab : storedBefore a i b j = true) (hbc : storedBefore b j c k = true) :
    storedBefore a i c k = true := by
  rw [storedBefore_iff] at *
  omega

end Order

namespace Moves

variable {r : Relayout} {entries entries' : List Entry} {name : String} {size i j : Nat}
  {old d e d' e' : Entry}

/-- An entry is the replaced one, or stored behind it and moved, or stored before it and kept. -/
theorem placement_cases (hm : r.Moves entries name size old) (he : entries[i]? = some e) :
    (i = r.target ∧ e = old ∧ placement old r.target size i e = ⟨old.offset, size⟩) ∨
    (storedBefore old r.target e i = true ∧ old.endOffset ≤ e.offset ∧
      (placement old r.target size i e).offset + old.size = e.offset + size ∧
      (placement old r.target size i e).size = e.size) ∨
    (storedBefore e i old r.target = true ∧ e.endOffset ≤ old.offset ∧
      placement old r.target size i e = ⟨e.offset, e.size⟩) := by
  by_cases hi : i = r.target
  · subst hi
    obtain rfl := Option.some.inj (hm.old_at.symm.trans he)
    exact Or.inl ⟨rfl, rfl, placement_target⟩
  · right
    unfold placement
    rw [if_neg hi]
    rcases storedBefore_cases (i := r.target) (j := i) (hm.unshared he hi) with
      ⟨hbehind, hend⟩ | ⟨hbefore, hend⟩
    · left
      rw [if_pos hbehind]
      refine ⟨hbehind, hend, ?_, rfl⟩
      unfold Entry.endOffset at hend
      dsimp only
      omega
    · right
      rw [if_neg (by rw [hbefore]; exact Bool.false_ne_true)]
      refine ⟨?_, hend, rfl⟩
      exact (storedBefore_total hi).resolve_right (by rw [hbefore]; exact Bool.false_ne_true)

theorem size_placement (hm : r.Moves entries name size old) (he : entries[i]? = some e) :
    (placement old r.target size i e).size = if i = r.target then size else e.size := by
  split
  case isTrue hi => rw [hi, placement_target]
  case isFalse hi => exact (hm.before_or_after he hi).1

/-- An entry stored behind the replaced one has the new payload in front of it instead of the old
one. The replaced entry is not stored behind itself. -/
theorem offset_placement (hm : r.Moves entries name size old) (he : entries[i]? = some e) :
    (placement old r.target size i e).offset +
        (if storedBefore old r.target e i then old.size else 0) =
      e.offset + if storedBefore old r.target e i then size else 0 := by
  rcases hm.placement_cases he with ⟨rfl, rfl, hp⟩ | ⟨hbehind, -, hp, -⟩ | ⟨hbefore, -, hp⟩
  · rw [hp, storedBefore_self]
    rfl
  · rw [if_pos hbehind, if_pos hbehind, hp]
  · rw [hp, storedBefore_asymm hbefore]
    rfl

section Placed

variable (hm : r.Moves entries name size old) (hplaced : entries'.map Entry.placement = r.placements)

include hm hplaced

theorem placement_eq_of_placed (he : entries[i]? = some e) (he' : entries'[i]? = some e') :
    placement old r.target size i e = e'.placement := by
  have hp := hm.getElem?_placements he
  rw [← hplaced, List.getElem?_map, he'] at hp
  exact (Option.some.inj hp).symm

theorem storedBefore_of_placed (hfilled : 0 < size) (hd : entries[i]? = some d)
    (he : entries[j]? = some e) (hd' : entries'[i]? = some d') (he' : entries'[j]? = some e')
    (h : storedBefore d i e j = true) : storedBefore d' i e' j = true := by
  have hdplace := hm.placement_eq_of_placed hplaced hd hd'
  have heplace := hm.placement_eq_of_placed hplaced he he'
  have hdcases := hm.placement_cases hd
  have hecases := hm.placement_cases he
  rw [hdplace] at hdcases
  rw [heplace] at hecases
  unfold Entry.placement Entry.endOffset at hdcases hecases
  simp only [Placement.mk.injEq] at hdcases hecases
  rw [storedBefore_iff]
  rcases hdcases with ⟨rfl, rfl, hd'⟩ | ⟨hdbehind, hdmove⟩ | ⟨hdbefore, hdmove⟩
  · -- The replaced payload has bytes now, and those behind it start behind them.
    rcases hecases with ⟨rfl, rfl, -⟩ | ⟨-, hemove⟩ | ⟨hebefore, -⟩
    · rw [storedBefore_self] at h; cases h
    · omega
    · rw [storedBefore_asymm hebefore] at h; cases h
  · rcases hecases with ⟨rfl, rfl, -⟩ | ⟨-, hemove⟩ | ⟨hebefore, -⟩
    · rw [storedBefore_asymm hdbehind] at h; cases h
    · rw [storedBefore_iff] at h
      omega
    · rw [storedBefore_asymm (storedBefore_trans hebefore hdbehind)] at h; cases h
  · rw [storedBefore_iff] at h
    rcases hecases with ⟨rfl, rfl, hemove⟩ | ⟨-, hemove⟩ | ⟨-, hemove⟩
    · omega
    · omega
    · omega

/-- Which of two payloads is stored first stays when one of them, or a third one, is replaced by
bytes that are not empty. -/
theorem storedBefore_placed (hfilled : 0 < size) (hd : entries[i]? = some d)
    (he : entries[j]? = some e) (hd' : entries'[i]? = some d') (he' : entries'[j]? = some e') :
    storedBefore d' i e' j = storedBefore d i e j := by
  by_cases hij : i = j
  · subst hij
    obtain rfl := Option.some.inj (hd.symm.trans he)
    obtain rfl := Option.some.inj (hd'.symm.trans he')
    rw [storedBefore_self, storedBefore_self]
  · rcases storedBefore_total (a := d) (b := e) hij with h | h
    · rw [h, hm.storedBefore_of_placed hplaced hfilled hd he hd' he' h]
    · rw [storedBefore_asymm h,
        storedBefore_asymm (hm.storedBefore_of_placed hplaced hfilled he hd he' hd' h)]

theorem size_of_placed (he : entries[i]? = some e) (he' : entries'[i]? = some e') :
    e'.size = if i = r.target then size else e.size := by
  rw [← hm.size_placement he, hm.placement_eq_of_placed hplaced he he']
  rfl

theorem offset_of_placed (he : entries[i]? = some e) (he' : entries'[i]? = some e') :
    e'.offset + (if storedBefore old r.target e i then old.size else 0) =
      e.offset + if storedBefore old r.target e i then size else 0 := by
  rw [← hm.offset_placement he, hm.placement_eq_of_placed hplaced he he']
  rfl

theorem length_of_placed : entries'.length = entries.length := by
  have hlength := congrArg List.length hplaced
  rwa [List.length_map, hm.placements_eq, List.length_mapIdx] at hlength

end Placed

section Twice

variable {r' s s' : Relayout} {entries'' : List Entry} {name' : String} {size' : Nat}
  {old' other other' : Entry}

/-- Layouts are the same when they put each entry at the same place. -/
theorem placements_ext (hm : r.Moves entries name size old)
    (hm' : r'.Moves entries' name' size' old') (hlength : entries.length = entries'.length)
    (h : ∀ i e e', entries[i]? = some e → entries'[i]? = some e' →
      placement old r.target size i e = placement old' r'.target size' i e') :
    r.placements = r'.placements := by
  rw [hm.placements_eq, hm'.placements_eq]
  apply List.ext_getElem
  · rw [List.length_mapIdx, List.length_mapIdx, hlength]
  · intro i hi hi'
    rw [List.length_mapIdx] at hi hi'
    rw [List.getElem_mapIdx, List.getElem_mapIdx]
    exact h i _ _ (List.getElem?_eq_getElem hi) (List.getElem?_eq_getElem hi')

section Again

variable (hm : r.Moves entries name size old) (hfilled : 0 < size)
  (hplaced : entries'.map Entry.placement = r.placements)

include hm hfilled hplaced

/-- When one payload is replaced twice, all come to lie where the second replacement alone would
have put them. -/
theorem placements_eq_of_again (hm' : r'.Moves entries' name size' old')
    (hs : s.Moves entries name size' old) (htarget : r'.target = r.target)
    (hstarget : s.target = r.target) : r'.placements = s.placements := by
  have hold' := hm'.old_at
  rw [htarget] at hold'
  have holdsize := hm.size_of_placed hplaced hm.old_at hold'
  rw [if_pos rfl] at holdsize
  refine hm'.placements_ext hs (hm.length_of_placed hplaced) fun i e' e he' he => ?_
  have horder := hm.storedBefore_placed hplaced hfilled hm.old_at he hold' he'
  apply Placement.ext
  · have hfirst := hm.offset_of_placed hplaced he he'
    have hsecond := hm'.offset_placement he'
    have honce := hs.offset_placement he
    rw [htarget, horder, holdsize] at hsecond
    rw [hstarget] at honce
    rw [htarget, hstarget]
    omega
  · rw [hm'.size_placement he', hs.size_placement he, htarget, hstarget]
    split
    case isTrue => rfl
    case isFalse hi => rw [hm.size_of_placed hplaced he he', if_neg hi]

/-- When two payloads are replaced one after the other, all come to lie at the same places in
either order. -/
theorem placements_eq_of_swapped (hm' : r'.Moves entries' name' size' old')
    (hs : s.Moves entries name' size' other) (hfilled' : 0 < size')
    (hsplaced : entries''.map Entry.placement = s.placements)
    (hs' : s'.Moves entries'' name size other') (htarget : r'.target = s.target)
    (hstarget : s'.target = r.target) (hne : r.target ≠ s.target) :
    r'.placements = s'.placements := by
  have hold' := hm'.old_at
  have hother' := hs'.old_at
  rw [htarget] at hold'
  rw [hstarget] at hother'
  have holdsize := hm.size_of_placed hplaced hs.old_at hold'
  have hothersize := hs.size_of_placed hsplaced hm.old_at hother'
  rw [if_neg (Ne.symm hne)] at holdsize
  rw [if_neg hne] at hothersize
  have hlength : entries'.length = entries''.length := by
    rw [hm.length_of_placed hplaced, hs.length_of_placed hsplaced]
  refine hm'.placements_ext hs' hlength fun i e' e'' he' he'' => ?_
  obtain ⟨e, he⟩ : ∃ e, entries[i]? = some e := by
    have hlt := (List.getElem?_eq_some_iff.mp he').1
    rw [hm.length_of_placed hplaced] at hlt
    exact ⟨_, List.getElem?_eq_getElem hlt⟩
  have horder := hm.storedBefore_placed hplaced hfilled hs.old_at he hold' he'
  have horder' := hs.storedBefore_placed hsplaced hfilled' hm.old_at he hother' he''
  apply Placement.ext
  · have hfirst := hm.offset_of_placed hplaced he he'
    have hsecond := hm'.offset_placement he'
    have hfirst' := hs.offset_of_placed hsplaced he he''
    have hsecond' := hs'.offset_placement he''
    rw [htarget, horder, holdsize] at hsecond
    rw [hstarget, horder', hothersize] at hsecond'
    rw [htarget, hstarget]
    omega
  · rw [hm'.size_placement he', hs'.size_placement he'', hm.size_of_placed hplaced he he',
      hs.size_of_placed hsplaced he he'', htarget, hstarget]
    by_cases hi : i = r.target
    · rw [if_pos hi, if_pos hi, if_neg (hi ▸ hne)]
    · rw [if_neg hi, if_neg hi]

end Again
end Twice
end Moves
end Relayout
end GameArchive
