import GameArchive.Proofs.Vfs3.Chunks
import GameArchive.Proofs.Vfs3.Names
import GameArchive.Proofs.Words.Arithmetic
/-!
# Name tables and chunk tables on words

Both tables are walked unit by unit and list by list. A unit is read before the position moves
behind it, and a list has to end inside its table before the position moves behind it, so that no
position lies further on than the end of the buffer.
-/
namespace GameArchive.Vfs3

variable {data : Bytes} {offset position stop count : Nat}

/-- `unitsAt` on words. -/
def unitsOnWords (data : Bytes) (position : Nat) : OnWords (List Nat × Nat) :=
  if _ : position + 2 ≤ data.size then do
    let unit := ofLittleEndian (data.extract position (position + 2)).toList
    let ⟨next, _⟩ ← Word.add position 2
    if unit = 0 then pure ([], next)
    else
      let (units, stop) ← unitsOnWords data next
      pure (unit :: units, stop)
  else throw (.outOfBounds position 2 data.size)
termination_by data.size - position

/-- `nameAt` on words. -/
def nameOnWords (data : Bytes) (position : Nat) : OnWords (String × Nat) := do
  let (units, next) ← unitsOnWords data position
  match Text.Utf16.decode? units with
  | some name => pure (name, next)
  | none => throw (.malformed (.unpairedSurrogate position))

/-- `namesAt` on words. -/
def namesOnWords (data : Bytes) : (count position : Nat) → OnWords (List String × Nat)
  | 0, position => pure ([], position)
  | count + 1, position => do
    let (name, next) ← nameOnWords data position
    let (names, stop) ← namesOnWords data count next
    pure (name :: names, stop)

/-- `nameListAt` on words. -/
def nameListOnWords (data : Bytes) (offset : Nat) : OnWords (List String × Nat) := do
  let count ← data.word offset 4
  let ⟨start, _⟩ ← Word.add offset 4
  let _ ← data.slice start (count * 2)
  namesOnWords data count start

/-- `NameTable.parse` on words. -/
def NameTable.parseOnWords (data : Bytes) (offset : Nat) : OnWords NameTable := do
  let (files, next) ← nameListOnWords data offset
  let (folders, _) ← nameListOnWords data next
  pure ⟨files, folders⟩

theorem run_unitsOnWords (hdata : data.size < 0x4000000000000000) :
    (unitsOnWords data position).run = some (unitsAt data position) := by
  fun_induction unitsAt data position with
  | case1 position hfits unit hzero =>
    rw [unitsOnWords, dif_pos hfits]
    exact Word.run_add (by omega) (OnWords.run_if_pos hzero rfl)
  | case2 position hfits unit hnonzero e herror ih =>
    rw [herror] at ih
    rw [unitsOnWords, dif_pos hfits]
    exact Word.run_add (by omega) (OnWords.run_if_neg hnonzero (OnWords.run_bind_error ih))
  | case3 position hfits unit hnonzero units next hunits ih =>
    rw [hunits] at ih
    rw [unitsOnWords, dif_pos hfits]
    exact Word.run_add (by omega) (OnWords.run_if_neg hnonzero (OnWords.run_bind_ok ih rfl))
  | case4 position hends =>
    rw [unitsOnWords, dif_neg hends]
    rfl

theorem run_nameOnWords (hdata : data.size < 0x4000000000000000) :
    (nameOnWords data position).run = some (nameAt data position) := by
  have hunits : (unitsOnWords data position).run = some (unitsAt data position) :=
    run_unitsOnWords hdata
  unfold nameAt
  cases h : unitsAt data position with
  | error e => exact OnWords.run_bind_error (h ▸ hunits)
  | ok found =>
    refine OnWords.run_bind_ok (h ▸ hunits) ?_
    dsimp only
    cases Text.Utf16.decode? found.1 <;> rfl

theorem run_namesOnWords (hdata : data.size < 0x4000000000000000) :
    (namesOnWords data count position).run = some (namesAt data count position) := by
  induction count generalizing position with
  | zero => rfl
  | succ count ih =>
    exact OnWords.run_bind (run_nameOnWords hdata) fun _ _ => OnWords.run_bind ih fun _ _ => rfl

theorem run_nameListOnWords (hdata : data.size < 0x4000000000000000) :
    (nameListOnWords data offset).run = some (nameListAt data offset) := by
  refine OnWords.run_bind rfl fun count hcount => ?_
  have hfits := Bytes.fits_of_word hcount
  refine Word.run_add (by omega) (OnWords.run_bind rfl fun _ _ => ?_)
  exact run_namesOnWords hdata

theorem NameTable.run_parseOnWords (hdata : data.size < 0x4000000000000000) :
    (NameTable.parseOnWords data offset).run = some (NameTable.parse data offset) :=
  OnWords.run_bind (run_nameListOnWords hdata) fun _ _ =>
    OnWords.run_bind (run_nameListOnWords hdata) fun _ _ => rfl

/-- `integersAt` on words, when `done` integers of the list are read. -/
def integersOnWords (data : Bytes) (first done : Nat) : (count : Nat) → OnWords (List Int)
  | 0 => pure []
  | count + 1 => do
    let ⟨distance, _⟩ ← Word.mul done 4
    let ⟨position, _⟩ ← Word.add first distance
    let v ← data.signedWord position 4
    let others ← integersOnWords data first (done + 1) count
    pure (v :: others)

/-- `listsAt` on words. The end of a list is computed only when its length is that of whole
integers. -/
def listsOnWords (data : Bytes) (stop position : Nat) : OnWords (List (List Int)) :=
  if _ : position < stop then do
    let ⟨first, _⟩ ← Word.add position 4
    if stop < first then throw (.malformed (.chunkHeaderCrossesEnd position stop))
    else
      let length ← data.word position 4
      if length % 4 ≠ 0 then throw (.malformed (.chunkListTooLong first length stop))
      else
        let ⟨next, _⟩ ← Word.add first length
        if stop < next then throw (.malformed (.chunkListTooLong first length stop))
        else
          let list ← integersOnWords data first 0 (length / 4)
          let others ← listsOnWords data stop next
          pure (list :: others)
  else pure []
termination_by stop - position

/-- `ChunkTable.parse` on words. -/
def ChunkTable.parseOnWords (data : Bytes) (offset : Nat) : OnWords ChunkTable := do
  let length ← data.word offset 4
  let ⟨start, _⟩ ← Word.add offset 4
  let ⟨stop, _⟩ ← Word.add start length
  let _ ← data.slice start length
  let lists ← listsOnWords data stop start
  pure ⟨lists⟩

theorem run_integersOnWords {done : Nat} (hdata : data.size < 0x4000000000000000)
    (hfits : position + 4 * (done + count) ≤ data.size) :
    (integersOnWords data position done count).run =
      some (integersAt data (position + done * 4) count) := by
  induction count generalizing done with
  | zero => rfl
  | succ count ih =>
    refine Word.run_mul (by omega) (Word.run_add (by omega) (OnWords.run_bind rfl fun _ _ => ?_))
    have hplace : position + (done + 1) * 4 = position + done * 4 + 4 := by omega
    exact OnWords.run_bind (hplace ▸ ih (by omega)) fun _ _ => rfl

theorem run_listsOnWords (hdata : data.size < 0x4000000000000000) (hstop : stop ≤ data.size) :
    (listsOnWords data stop position).run = some (listsAt data stop position) := by
  fun_induction listsAt data stop position with
  | case1 position hlt hcross =>
    rw [listsOnWords, dif_pos hlt]
    exact Word.run_add (by omega) (OnWords.run_if_pos hcross rfl)
  | case2 position hlt hfits e herror =>
    rw [listsOnWords, dif_pos hlt]
    refine Word.run_add (by omega) (OnWords.run_if_neg hfits ?_)
    exact OnWords.run_bind_error (congrArg some herror)
  | case3 position hlt hfits length hlength hbad =>
    have hbound := Bytes.lt_of_word hlength
    rw [listsOnWords, dif_pos hlt]
    refine Word.run_add (by omega) (OnWords.run_if_neg hfits ?_)
    refine OnWords.run_bind_ok (congrArg some hlength) ?_
    by_cases hwhole : length % 4 = 0
    · have hends := hbad.resolve_left (not_not_intro hwhole)
      refine OnWords.run_if_neg (not_not_intro hwhole) ?_
      exact Word.run_add (by omega) (OnWords.run_if_pos hends rfl)
    · exact OnWords.run_if_pos hwhole rfl
  | case4 position hlt hfits length hlength hgood ih =>
    have hbound := Bytes.lt_of_word hlength
    obtain ⟨hwhole, hends⟩ := not_or.mp hgood
    have hintegers : (integersOnWords data (position + 4) 0 (length / 4)).run =
        some (integersAt data (position + 4) (length / 4)) :=
      run_integersOnWords hdata (by omega)
    rw [listsOnWords, dif_pos hlt]
    refine Word.run_add (by omega) (OnWords.run_if_neg hfits ?_)
    refine OnWords.run_bind_ok (congrArg some hlength) (OnWords.run_if_neg hwhole ?_)
    refine Word.run_add (by omega) (OnWords.run_if_neg hends ?_)
    exact OnWords.run_bind hintegers fun _ _ => OnWords.run_bind ih fun _ _ => rfl
  | case5 position hend =>
    rw [listsOnWords, dif_neg hend]
    rfl

theorem ChunkTable.run_parseOnWords (hdata : data.size < 0x4000000000000000) :
    (ChunkTable.parseOnWords data offset).run = some (ChunkTable.parse data offset) := by
  refine OnWords.run_bind rfl fun length hlength => ?_
  have hfits := Bytes.fits_of_word hlength
  have hbound := Bytes.lt_of_word hlength
  refine Word.run_add (by omega) (Word.run_add (by omega) (OnWords.run_bind rfl fun _ hroom => ?_))
  have hstop := (Bytes.slice_eq_ok.mp hroom).1
  exact OnWords.run_bind (run_listsOnWords hdata hstop) fun _ _ => rfl

end GameArchive.Vfs3
