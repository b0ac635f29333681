import GameArchive.Archive.Relayout
import GameArchive.Proofs.Bytes
/-!
# Placements around a replaced entry

No entry shares bytes with the replaced one, so each lies wholly before it and stays, or wholly
behind it and moves by the difference of the sizes.
-/
namespace GameArchive

theorem exists_getElem?_of_succ {α : Type} {l : List α} {i : Nat} {x : α}
    (h : l[i + 1]? = some x) : ∃ y, l[i]? = some y :=
  ⟨_, List.getElem?_eq_getElem (by have := (List.getElem?_eq_some_iff.mp h).1; omega)⟩

/-- Each entry starts where the one before it ends, the first at `start`. -/
def Tiles : (start : Nat) → List Entry → Prop
  | _, [] => True
  | start, e :: rest => e.offset = start ∧ Tiles e.endOffset rest

namespace Tiles

variable {start : Nat} {entries : List Entry}

theorem le_offset (h : Tiles start entries) : ∀ e ∈ entries, start ≤ e.offset := by
  induction entries generalizing start with
  | nil => intro e he; cases he
  | cons d rest ih =>
    obtain ⟨rfl, hrest⟩ := h
    intro e he
    rcases List.mem_cons.mp he with rfl | he
    · exact Nat.le_refl _
    · have := ih hrest e he
      unfold Entry.endOffset at this
      omega

theorem pairwise (h : Tiles start entries) :
    entries.Pairwise fun a b => a.endOffset ≤ b.offset := by
  induction entries generalizing start with
  | nil => exact List.Pairwise.nil
  | cons d rest ih => exact List.Pairwise.cons h.2.le_offset (ih h.2)

theorem head (h : Tiles start entries) {e : Entry} (he : entries[0]? = some e) :
    e.offset = start := by
  cases entries with
  | nil => cases he
  | cons d rest => cases he; exact h.1

theorem endOffset_le (h : Tiles start entries) {i j : Nat} {d e : Entry} (hd : entries[i]? = some d)
    (he : entries[j]? = some e) (hij : i < j) : d.endOffset ≤ e.offset := by
  obtain ⟨hi, rfl⟩ := List.getElem?_eq_some_iff.mp hd
  obtain ⟨hj, rfl⟩ := List.getElem?_eq_some_iff.mp he
  exact List.pairwise_iff_getElem.mp h.pairwise i j hi hj hij

theorem succ (h : Tiles start entries) {i : Nat} {d e : Entry} (hd : entries[i]? = some d)
    (he : entries[i + 1]? = some e) : e.offset = d.endOffset := by
  induction entries generalizing start i with
  | nil => cases hd
  | cons c rest ih =>
    cases i with
    | zero => cases hd; exact h.2.head he
    | succ i => exact ih h.2 hd he

theorem endOffset_le_of_last (h : Tiles start entries) {limit : Nat}
    (hlast : ∀ e, entries.getLast? = some e → e.endOffset = limit) :
    ∀ e ∈ entries, e.endOffset ≤ limit := by
  intro e he
  obtain ⟨i, hi⟩ := List.mem_iff_getElem?.mp he
  have hlt := (List.getElem?_eq_some_iff.mp hi).1
  have hne := List.ne_nil_of_mem he
  have hend := hlast _ (List.getLast?_eq_some_getLast hne)
  have hget : entries[entries.length - 1]? = some (entries.getLast hne) := by
    rw [← List.getLast?_eq_getElem?, List.getLast?_eq_some_getLast hne]
  rcases Nat.lt_or_eq_of_le (Nat.le_sub_one_of_lt hlt) with hbefore | rfl
  · have hle := h.endOffset_le hi hget hbefore
    rw [← hend]
    exact Nat.le_trans hle (Nat.le_add_right _ _)
  · rw [Option.some.inj (hi.symm.trans hget)]
    exact Nat.le_of_eq hend

/-- There are no gaps between entries that tile. -/
theorem exists_covering (h : Tiles start entries) {p : Nat} (hstart : start ≤ p)
    (hend : ∃ e ∈ entries, p < e.endOffset) : ∃ e ∈ entries, e.offset ≤ p ∧ p < e.endOffset := by
  induction entries generalizing start with
  | nil => obtain ⟨e, he, -⟩ := hend; cases he
  | cons d rest ih =>
    obtain ⟨rfl, hrest⟩ := h
    rcases Nat.lt_or_ge p d.endOffset with hlt | hge
    · exact ⟨d, List.mem_cons_self, hstart, hlt⟩
    · obtain ⟨e, he, hp⟩ := hend
      rcases List.mem_cons.mp he with rfl | he
      · omega
      · obtain ⟨c, hc, hcovers⟩ := ih hrest hge ⟨e, he, hp⟩
        exact ⟨c, List.mem_cons_of_mem _ hc, hcovers⟩

end Tiles

/-- Whether two entries have a byte in common, or one is empty and lies strictly inside the other. -/
def Entry.Overlaps (a b : Entry) : Prop :=
  (∃ p, (a.offset ≤ p ∧ p < a.endOffset) ∧ b.offset ≤ p ∧ p < b.endOffset) ∨
    (a.size = 0 ∧ b.offset < a.offset ∧ a.offset < b.endOffset) ∨
    (b.size = 0 ∧ a.offset < b.offset ∧ b.offset < a.endOffset)

namespace Relayout

theorem sharesBytes_iff_overlaps {a b : Entry} : sharesBytes a b = true ↔ a.Overlaps b := by
  unfold sharesBytes Entry.Overlaps Entry.endOffset
  constructor
  · intro h
    by_cases ha : a.size = 0
    · by_cases hb : b.size = 0
      · simp [ha, hb] at h
      · simp only [ha, hb, if_true, if_false, decide_eq_true_eq] at h
        exact Or.inr (Or.inl ⟨ha, h⟩)
    · by_cases hb : b.size = 0
      · simp only [ha, hb, if_true, if_false, decide_eq_true_eq] at h
        exact Or.inr (Or.inr ⟨hb, h⟩)
      · simp only [ha, hb, if_false, decide_eq_true_eq] at h
        exact Or.inl ⟨max a.offset b.offset, by omega, by omega⟩
  · rintro (⟨p, hpa, hpb⟩ | ⟨ha, h⟩ | ⟨hb, h⟩)
    · rw [if_neg (by omega), if_neg (by omega)]
      exact decide_eq_true (by omega)
    · rw [if_pos ha, if_neg (by omega)]
      exact decide_eq_true h
    · rw [if_neg (by omega), if_pos hb]
      exact decide_eq_true h

instance (a b : Entry) : Decidable (a.Overlaps b) :=
  decidable_of_iff _ sharesBytes_iff_overlaps

/-- The placement of entry `i` when entry `target`, that is `old`, takes `size` bytes, where no
entry would move before the start. -/
def placement (old : Entry) (target size i : Nat) (e : Entry) : Placement :=
  if i = target then ⟨e.offset, size⟩
  else if storedBefore old target e i then ⟨e.offset + size - old.size, e.size⟩
  else ⟨e.offset, e.size⟩

@[simp]
theorem placement_target {old e : Entry} {target size : Nat} :
    placement old target size target e = ⟨e.offset, size⟩ :=
  if_pos rfl

theorem eq_placement_of_place {old e : Entry} {target size i : Nat} {p : Placement}
    (h : place old target size e i = .ok p) : p = placement old target size i e := by
  unfold place at h
  unfold placement
  split at h
  case isTrue hi => cases h; rw [if_pos hi]
  case isFalse hi =>
    rw [if_neg hi]
    split at h
    case isTrue hb =>
      rw [if_pos hb]
      split at h
      case isTrue => cases h
      case isFalse => cases h; rfl
    case isFalse hb => cases h; rw [if_neg hb]

/-- Entries apart from each other are stored one wholly before the other. -/
theorem storedBefore_cases {a b : Entry} {i j : Nat} (h : sharesBytes a b = false) :
    (storedBefore a i b j = true ∧ a.endOffset ≤ b.offset) ∨
      (storedBefore a i b j = false ∧ b.endOffset ≤ a.offset) := by
  unfold sharesBytes Entry.endOffset at *
  cases hb : storedBefore a i b j
  case false =>
    right
    refine ⟨rfl, ?_⟩
    simp only [storedBefore, Bool.or_eq_false_iff, Bool.and_eq_false_iff, decide_eq_false_iff_not,
      beq_eq_false_iff_ne] at hb
    grind
  case true =>
    left
    refine ⟨rfl, ?_⟩
    simp only [storedBefore, Bool.or_eq_true, Bool.and_eq_true, decide_eq_true_eq,
      beq_iff_eq] at hb
    grind

/-- An entry stored behind the replaced one starts at its end or later, so it does not move before
the start of the archive. -/
theorem place_eq_ok {old e : Entry} {target i : Nat} (size : Nat)
    (h : i ≠ target → sharesBytes old e = false) :
    place old target size e i = .ok (placement old target size i e) := by
  unfold place placement
  split
  case isTrue => rfl
  case isFalse hi =>
    split
    case isTrue hb =>
      rcases storedBefore_cases (i := target) (j := i) (h hi) with ⟨-, hend⟩ | ⟨hb', -⟩
      · rw [if_neg]
        unfold Entry.endOffset at hend
        omega
      · rw [hb'] at hb; cases hb
    case isFalse => rfl

theorem placeFrom_eq_ok {old : Entry} {target k : Nat} {entries : List Entry} (size : Nat)
    (h : ∀ i e, entries[i]? = some e → k + i ≠ target → sharesBytes old e = false) :
    ∃ ps, placeFrom old target size k entries = .ok ps := by
  induction entries generalizing k with
  | nil => exact ⟨[], rfl⟩
  | cons e rest ih =>
    obtain ⟨ps, hps⟩ := @ih (k + 1) fun i d hd hi => h (i + 1) d hd (by omega)
    refine ⟨placement old target size k e :: ps, ?_⟩
    have hplace := place_eq_ok size fun hk => h 0 e rfl hk
    rw [Nat.add_zero] at hplace
    rw [placeFrom, hplace, hps]
    rfl

theorem placeFrom_eq_mapIdx {old : Entry} {target size k : Nat} {entries : List Entry}
    {ps : List Placement} (h : placeFrom old target size k entries = .ok ps) :
    ps = entries.mapIdx fun i e => placement old target size (k + i) e := by
  induction entries generalizing k ps with
  | nil => cases h; rfl
  | cons e rest ih =>
    obtain ⟨p, hp, h⟩ := bind_eq_ok.mp h
    obtain ⟨others, hothers, h⟩ := bind_eq_ok.mp h
    cases h
    rw [eq_placement_of_place hp, ih hothers, List.mapIdx_cons]
    simp only [Nat.add_zero, Nat.add_assoc, Nat.add_comm 1]

theorem unshared_of_findShared?_eq_none {old : Entry} {target k : Nat} {entries : List Entry}
    (h : findShared? old target k entries = none) {i : Nat} {e : Entry}
    (he : entries[i]? = some e) (hi : k + i ≠ target) : sharesBytes old e = false := by
  induction entries generalizing k i with
  | nil => cases he
  | cons d rest ih =>
    unfold findShared? at h
    split at h
    case isTrue => cases h
    case isFalse hd =>
      cases i with
      | zero =>
        cases he
        have hk : k ≠ target := hi
        simpa [hk] using hd
      | succ i => exact ih h he (by omega)

theorem exists_of_findShared?_eq_some {old other : Entry} {target k : Nat} {entries : List Entry}
    (h : findShared? old target k entries = some other) :
    ∃ i, entries[i]? = some other ∧ k + i ≠ target ∧ sharesBytes old other = true := by
  induction entries generalizing k with
  | nil => cases h
  | cons d rest ih =>
    unfold findShared? at h
    split at h
    case isTrue hd =>
      cases h
      exact ⟨0, rfl, hd⟩
    case isFalse =>
      obtain ⟨i, hi, hne, hshares⟩ := ih h
      exact ⟨i + 1, hi, by omega, hshares⟩

/-- What is known of a layout that could be made. -/
structure Moves (r : Relayout) (entries : List Entry) (name : String) (size : Nat) (old : Entry) :
    Prop where
  target_eq : r.target = entries.findIdx fun e => e.name == name
  old_at : entries[r.target]? = some old
  unshared : ∀ {i : Nat} {e : Entry}, entries[i]? = some e → i ≠ r.target →
    sharesBytes old e = false
  placements_eq : r.placements = entries.mapIdx (placement old r.target size)

theorem moves_of_ofReplacement {entries : List Entry} {name : String} {size : Nat} {r : Relayout}
    (h : ofReplacement entries name size = .ok r) : ∃ old, r.Moves entries name size old := by
  unfold ofReplacement at h
  dsimp only at h
  split at h
  case h_1 => cases h
  case h_2 old hold =>
    split at h
    case h_1 => cases h
    case h_2 hshared =>
      obtain ⟨ps, hps, rfl⟩ := map_eq_ok.mp h
      refine ⟨old, rfl, hold, ?_, ?_⟩
      · intro i e he hi
        exact unshared_of_findShared?_eq_none hshared he (by rwa [Nat.zero_add])
      · simpa only [Nat.zero_add] using placeFrom_eq_mapIdx hps

/-- A layout can be made exactly when the name is there and no other entry shares bytes with the
first one of that name. -/
theorem ofReplacement_cases {entries : List Entry} {name : String} (size : Nat) {target : Nat}
    (htarget : target = entries.findIdx fun e => e.name == name) :
    ((∀ e ∈ entries, e.name ≠ name) ∧ ofReplacement entries name size = .error (.notFound name)) ∨
      ∃ old, entries[target]? = some old ∧
        ((∃ i other, entries[i]? = some other ∧ i ≠ target ∧ sharesBytes old other = true ∧
            ofReplacement entries name size =
              .error (.malformed (.sharedBytes name other.name))) ∨
          ((∀ i e, entries[i]? = some e → i ≠ target → sharesBytes old e = false) ∧
            ∃ r, ofReplacement entries name size = .ok r)) := by
  unfold ofReplacement
  rw [← htarget]
  cases hold : entries[target]? with
  | none =>
    left
    refine ⟨?_, by simp only [hold]⟩
    have hle := List.getElem?_eq_none_iff.mp hold
    rw [htarget] at hle
    have hnone := List.findIdx_eq_length.mp (Nat.le_antisymm List.findIdx_le_length hle)
    exact fun e he => by simpa using hnone e he
  | some old =>
    right
    refine ⟨old, rfl, ?_⟩
    cases hshared : findShared? old target 0 entries with
    | some other =>
      left
      obtain ⟨i, hi, hne, hshares⟩ := exists_of_findShared?_eq_some hshared
      exact ⟨i, other, hi, by rwa [Nat.zero_add] at hne, hshares, by simp only [hold, hshared]⟩
    | none =>
      right
      have hunshared : ∀ i e, entries[i]? = some e → i ≠ target → sharesBytes old e = false :=
        fun i e he hi => unshared_of_findShared?_eq_none hshared he (by rwa [Nat.zero_add])
      obtain ⟨ps, hps⟩ := placeFrom_eq_ok (k := 0) size fun i e he hi =>
        hunshared i e he (by rwa [Nat.zero_add] at hi)
      refine ⟨hunshared, ⟨ps, target⟩, ?_⟩
      simp only [hold, hshared, hps]
      rfl

namespace Moves

variable {r : Relayout} {entries : List Entry} {name : String} {size : Nat} {old e : Entry} {i : Nat}

theorem name_eq (hm : r.Moves entries name size old) : old.name = name := by
  obtain ⟨ht, rfl⟩ := List.getElem?_eq_some_iff.mp hm.old_at
  simp only [hm.target_eq] at ht ⊢
  simpa using List.findIdx_getElem (w := ht)

theorem old_mem (hm : r.Moves entries name size old) : old ∈ entries :=
  List.mem_of_getElem? hm.old_at

theorem getElem?_placements (hm : r.Moves entries name size old) (he : entries[i]? = some e) :
    r.placements[i]? = some (placement old r.target size i e) := by
  rw [hm.placements_eq, List.getElem?_mapIdx, he, Option.map_some]

theorem mem_placements (hm : r.Moves entries name size old) (he : entries[i]? = some e) :
    placement old r.target size i e ∈ r.placements :=
  List.mem_of_getElem? (hm.getElem?_placements he)

theorem exists_of_getElem?_placements (hm : r.Moves entries name size old) {p : Placement}
    (hp : r.placements[i]? = some p) :
    ∃ e, entries[i]? = some e ∧ placement old r.target size i e = p := by
  rwa [hm.placements_eq, List.getElem?_mapIdx, Option.map_eq_some_iff] at hp

theorem exists_of_mem_placements (hm : r.Moves entries name size old) {p : Placement}
    (hp : p ∈ r.placements) :
    ∃ (i : Nat) (e : Entry), entries[i]? = some e ∧ placement old r.target size i e = p := by
  obtain ⟨i, hi⟩ := List.mem_iff_getElem?.mp hp
  exact ⟨i, hm.exists_of_getElem?_placements hi⟩

/-- An entry other than the replaced one lies before it and stays, or behind it and moves. -/
theorem before_or_after (hm : r.Moves entries name size old) (he : entries[i]? = some e)
    (hi : i ≠ r.target) :
    (placement old r.target size i e).size = e.size ∧
      ((e.endOffset ≤ old.offset ∧ (placement old r.target size i e).offset = e.offset) ∨
        (old.endOffset ≤ e.offset ∧
          (placement old r.target size i e).offset + old.size = e.offset + size)) := by
  have hside := storedBefore_cases (i := r.target) (j := i) (hm.unshared he hi)
  unfold placement
  rw [if_neg hi]
  rcases hside with ⟨hb, hend⟩ | ⟨hb, hend⟩
  · rw [if_pos hb]
    refine ⟨rfl, Or.inr ⟨hend, ?_⟩⟩
    unfold Entry.endOffset at hend
    show e.offset + size - old.size + old.size = e.offset + size
    omega
  · rw [hb, if_neg Bool.false_ne_true]
    exact ⟨rfl, Or.inl ⟨hend, rfl⟩⟩

/-- No payload is placed before the first of the old ones. -/
theorem le_placement_offset (hm : r.Moves entries name size old) {q : Nat}
    (hq : ∀ e ∈ entries, q ≤ e.offset) (he : entries[i]? = some e) :
    q ≤ (placement old r.target size i e).offset := by
  have heq := hq e (List.mem_of_getElem? he)
  have hold := hq old hm.old_mem
  by_cases hi : i = r.target
  · rw [hi, placement_target]
    exact heq
  · obtain ⟨-, ⟨-, hoff⟩ | ⟨hend, hoff⟩⟩ := hm.before_or_after he hi
    · omega
    · unfold Entry.endOffset at hend
      omega

/-- When the size stays, so do all places. -/
theorem placement_eq_self (hm : r.Moves entries name size old) (hsize : size = old.size)
    (he : entries[i]? = some e) : placement old r.target size i e = ⟨e.offset, e.size⟩ := by
  by_cases hi : i = r.target
  · subst hi
    obtain rfl := Option.some.inj (hm.old_at.symm.trans he)
    rw [placement_target, hsize]
  · obtain ⟨hkept, hside⟩ := hm.before_or_after he hi
    have hoffset : (placement old r.target size i e).offset = e.offset := by omega
    rw [← hoffset, ← hkept]

/-- Nothing moves by more than the replacement takes. -/
theorem placement_endOffset_le (hm : r.Moves entries name size old) {limit : Nat}
    (hfit : ∀ e ∈ entries, e.endOffset ≤ limit) (he : entries[i]? = some e) :
    (placement old r.target size i e).endOffset ≤ limit + size := by
  have hend := hfit e (List.mem_of_getElem? he)
  unfold Placement.endOffset
  unfold Entry.endOffset at hend
  by_cases hi : i = r.target
  · rw [hi, placement_target]
    dsimp only
    omega
  · obtain ⟨hsize, ⟨-, hoff⟩ | ⟨-, hoff⟩⟩ := hm.before_or_after he hi
    · omega
    · omega

/-- Entries apart from each other are placed apart from each other. -/
theorem placement_apart (hm : r.Moves entries name size old) {j : Nat} {d : Entry} (hij : i ≠ j)
    (hd : entries[i]? = some d) (he : entries[j]? = some e)
    (hapart : i ≠ r.target → j ≠ r.target → d.endOffset ≤ e.offset ∨ e.endOffset ≤ d.offset) :
    (placement old r.target size i d).endOffset ≤ (placement old r.target size j e).offset ∨
      (placement old r.target size j e).endOffset ≤ (placement old r.target size i d).offset := by
  unfold Placement.endOffset
  unfold Entry.endOffset at hapart
  by_cases hi : i = r.target
  · subst hi
    obtain ⟨hsize, hside⟩ := hm.before_or_after he (Ne.symm hij)
    obtain rfl := Option.some.inj (hm.old_at.symm.trans hd)
    rw [placement_target]
    unfold Entry.endOffset at hside
    dsimp only
    omega
  · obtain ⟨hsize, hside⟩ := hm.before_or_after hd hi
    by_cases hj : j = r.target
    · subst hj
      obtain rfl := Option.some.inj (hm.old_at.symm.trans he)
      rw [placement_target]
      unfold Entry.endOffset at hside
      dsimp only
      omega
    · obtain ⟨hsize', hside'⟩ := hm.before_or_after he hj
      have := hapart hi hj
      unfold Entry.endOffset at hside hside'
      omega

section Tiles

variable {start : Nat} (hm : r.Moves entries name size old) (ht : Tiles start entries)

include hm ht

/-- Among entries that tile, those listed before the replaced one stay. -/
theorem offset_of_lt_target (he : entries[i]? = some e) (hi : i < r.target) :
    e.endOffset ≤ old.offset ∧ placement old r.target size i e = ⟨e.offset, e.size⟩ := by
  have hend := ht.endOffset_le he hm.old_at hi
  refine ⟨hend, ?_⟩
  have hb : storedBefore old r.target e i = false := by
    unfold Entry.endOffset at hend
    simp only [storedBefore, Bool.or_eq_false_iff, Bool.and_eq_false_iff, decide_eq_false_iff_not,
      beq_eq_false_iff_ne]
    grind
  rw [placement, if_neg (Nat.ne_of_lt hi), hb, if_neg Bool.false_ne_true]

/-- Among entries that tile, those listed behind the replaced one move. -/
theorem offset_of_target_lt (he : entries[i]? = some e) (hi : r.target < i) :
    old.endOffset ≤ e.offset ∧
      placement old r.target size i e = ⟨e.offset + size - old.size, e.size⟩ := by
  have hend := ht.endOffset_le hm.old_at he hi
  refine ⟨hend, ?_⟩
  have hb : storedBefore old r.target e i = true := by
    unfold Entry.endOffset at hend
    simp only [storedBefore, Bool.or_eq_true, Bool.and_eq_true, decide_eq_true_eq, beq_iff_eq]
    grind
  rw [placement, if_neg (Nat.ne_of_gt hi), if_pos hb]

/-- Placements of entries that tile do so as well. -/
theorem placement_succ {d : Entry} (hd : entries[i]? = some d) (he : entries[i + 1]? = some e) :
    (placement old r.target size (i + 1) e).offset = (placement old r.target size i d).endOffset := by
  have hsucc := ht.succ hd he
  unfold Placement.endOffset
  unfold Entry.endOffset at hsucc
  rcases Nat.lt_trichotomy i r.target with hi | hi | hi
  · rw [(hm.offset_of_lt_target ht hd hi).2]
    rcases Nat.lt_or_eq_of_le (Nat.succ_le_iff.mpr hi) with hi' | hi'
    · rw [(hm.offset_of_lt_target ht he hi').2]
      exact hsucc
    · rw [show i + 1 = r.target from hi', placement_target]
      exact hsucc
  · subst hi
    obtain rfl := Option.some.inj (hm.old_at.symm.trans hd)
    rw [(hm.offset_of_target_lt ht he (Nat.lt_succ_self _)).2, placement_target]
    dsimp only
    omega
  · have hend := (hm.offset_of_target_lt ht hd hi).1
    unfold Entry.endOffset at hend
    rw [(hm.offset_of_target_lt ht hd hi).2,
      (hm.offset_of_target_lt ht he (Nat.lt_succ_of_lt hi)).2]
    dsimp only
    omega

/-- The ends of the entries listed before the replaced one stay. -/
theorem endOffset_of_lt_target (he : entries[i]? = some e) (hi : i < r.target) :
    (placement old r.target size i e).endOffset = e.endOffset ∧ e.endOffset ≤ old.offset := by
  obtain ⟨hend, hp⟩ := hm.offset_of_lt_target ht he hi
  exact ⟨by rw [hp]; rfl, hend⟩

/-- The ends of the others move by the difference. -/
theorem endOffset_of_target_le (he : entries[i]? = some e) (hi : r.target ≤ i) :
    (placement old r.target size i e).endOffset + old.size = e.endOffset + size ∧
      old.endOffset ≤ e.endOffset := by
  rcases Nat.eq_or_lt_of_le hi with hi | hi
  · subst hi
    obtain rfl := Option.some.inj (hm.old_at.symm.trans he)
    rw [placement_target]
    unfold Placement.endOffset Entry.endOffset
    dsimp only
    omega
  · obtain ⟨hend, hp⟩ := hm.offset_of_target_lt ht he hi
    rw [hp]
    unfold Placement.endOffset Entry.endOffset at *
    dsimp only
    omega

/-- Placements are ordered like the entries that tile. -/
theorem endOffset_le_offset {d : Entry} {j : Nat} (hd : entries[i]? = some d)
    (he : entries[j]? = some e) (hij : i < j) :
    (placement old r.target size i d).endOffset ≤ (placement old r.target size j e).offset := by
  induction j generalizing e with
  | zero => omega
  | succ j ih =>
    obtain ⟨c, hc⟩ := exists_getElem?_of_succ he
    rw [hm.placement_succ ht hc he]
    rcases Nat.lt_or_eq_of_le (Nat.le_of_lt_succ hij) with hij | rfl
    · exact Nat.le_trans (ih hc hij) (Nat.le_add_right _ _)
    · obtain rfl := Option.some.inj (hd.symm.trans hc)
      exact Nat.le_refl _

/-- The first placement is where the entries start. -/
theorem offset_head (he : entries[0]? = some e) :
    (placement old r.target size 0 e).offset = start := by
  rw [← ht.head he]
  rcases Nat.eq_zero_or_pos r.target with htarget | htarget
  · rw [htarget, placement_target]
  · rw [(hm.offset_of_lt_target ht he htarget).2]

theorem start_le_offset (he : entries[i]? = some e) :
    start ≤ (placement old r.target size i e).offset := by
  cases i with
  | zero => exact Nat.le_of_eq (hm.offset_head ht he).symm
  | succ i =>
    obtain ⟨d, hd⟩ : ∃ d, entries[0]? = some d :=
      ⟨_, List.getElem?_eq_getElem (by have := (List.getElem?_eq_some_iff.mp he).1; omega)⟩
    have hle := hm.endOffset_le_offset ht hd he (Nat.succ_pos i)
    unfold Placement.endOffset at hle
    rw [hm.offset_head ht hd] at hle
    omega

end Tiles

end Moves
end Relayout
end GameArchive
