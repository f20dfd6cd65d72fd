import Viengoos.Addr
import Viengoos.Lib.OpenAddressing
import Viengoos.Lib.Outcome

/-!
# The hash table of `libhurd-ihash`

Integer keys are hashed by division and probed in both directions; a deleted slot keeps its key,
and searches stop there. The table grows when it is loaded beyond a limit or full, by storing its
items one by one in a larger table. An item may have a location pointer in it, which the table keeps
pointed to the item's slot.

Arrays are told apart by a number, so that a location pointer is a number of an array and an index.
Tables have less than `2 ^ 24` slots, where no index or counter overflows. Cleanup functions are
left out.
-/

namespace Viengoos

open Outcome OpenAddressing Function List Option

/-- `ihash_sizes`. -/
def ihashSizes : List ℕ :=
  [3, 7, 19, 43, 103, 211, 431, 863, 1747, 3499, 7019, 14051, 28111, 56239, 112507, 225023, 450067,
    900139, 1800311, 3600659, 7201351, 14402743, 28805519, 57611039, 115222091, 230444239,
    460888499, 921777067, 1843554151, 3687108307, 7374216631, 14748433279, 29496866579,
    58993733159, 117987466379, 235974932759, 471949865531, 943899731087]

/-- `struct hurd_ihash`, with the location pointers of the items. -/
structure Ihash (V : Type) where
  nrItems : ℕ
  /-- Which array the items are in. -/
  array : ℕ
  items : ℕ → Item V
  size : ℕ
  /-- Whether items have location pointers. -/
  locp : Bool
  maxLoad : ℕ
  location : V → Option (ℕ × ℕ)

/-- What `hurd_ihash_replace` returns: the old value of the key, or no memory. -/
inductive IhashReply (V : Type)
  | done (old : Option V)
  | nomem

namespace Ihash

variable {V : Type}

/-! ### The code -/

/-- `index_empty`. -/
def indexEmpty (ht : Ihash V) (i : ℕ) : Bool :=
  match (ht.items i).value with
  | .empty | .deleted => true
  | .live _ => false

/-- `index_valid`, with the value. -/
def indexValid (ht : Ihash V) (i key : ℕ) : Option V :=
  match (ht.items i).value with
  | .empty | .deleted => none
  | .live v => if (ht.items i).key = key then some v else none

/-- `VALUE (ht, i) == _HURD_IHASH_EMPTY || KEY (ht, i) == key`. -/
def stops (ht : Ihash V) (key i : ℕ) : Bool :=
  match (ht.items i).value with
  | .empty => true
  | .deleted | .live _ => (ht.items i).key == key

/-- `VALUE (ht, i) == _HURD_IHASH_DELETED`. -/
def isDeleted (ht : Ihash V) (i : ℕ) : Bool :=
  match (ht.items i).value with
  | .deleted => true
  | .empty | .live _ => false

/-- The next index below. -/
def nextDown (size down i : ℕ) : ℕ := ((if down < i then down + size else down) - i) % size

/-- The loop of `find_index`. -/
def findLoop (ht : Ihash V) (key home : ℕ) : ℕ → ℕ → ℕ → ℕ → ℕ
  | 0, _, _, _ => home
  | n + 1, up, down, i =>
    let up := (up + i) % ht.size
    if ht.stops key up then up
    else
      let down := nextDown ht.size down i
      if ht.stops key down then down
      else if (i + 2) % ht.size = 0 then home
      else findLoop ht key home n up down ((i + 2) % ht.size)

/-- `find_index`. -/
def findIndex (ht : Ihash V) (key : ℕ) : ℕ :=
  let home := key % ht.size
  if ht.stops key home then home else findLoop ht key home ht.size home home 1

/-- `locp_remove`. -/
def locpRemove (ht : Ihash V) (i : ℕ) : Ihash V :=
  { ht with
    items := update ht.items i { ht.items i with value := .deleted }
    nrItems := ht.nrItems - 1 }

/-- The loop of `replace_one`, which also remembers a deleted slot. -/
def replaceLoop (ht : Ihash V) (key home : ℕ) : ℕ → ℕ → ℕ → ℕ → ℕ → ℕ × ℕ
  | 0, _, _, _, firstFree => (home, firstFree)
  | n + 1, up, down, i, firstFree =>
    let up := (up + i) % ht.size
    if ht.stops key up then (up, firstFree)
    else
      let firstFree := if firstFree = home ∧ ht.isDeleted up then up else firstFree
      let down := nextDown ht.size down i
      if ht.stops key down then (down, firstFree)
      else
        let firstFree := if firstFree = home ∧ ht.isDeleted down then down else firstFree
        if (i + 2) % ht.size = 0 then (home, firstFree)
        else replaceLoop ht key home n up down ((i + 2) % ht.size) firstFree

/-- Where `replace_one` looks: the index of the key, and of a free slot. -/
def replaceIndex (ht : Ihash V) (key : ℕ) : ℕ × ℕ :=
  let home := key % ht.size
  if ht.stops key home then (home, home)
  else replaceLoop ht key home ht.size home home 1 home

variable [DecidableEq V]

/-- Store an item in a slot. -/
def store (ht : Ihash V) (i key : ℕ) (value : V) : Ihash V :=
  { ht with
    nrItems := ht.nrItems + 1
    items := update ht.items i ⟨.live value, key⟩
    location := if ht.locp then update ht.location value (some (ht.array, i))
      else ht.location }

/-- `replace_one`. The second component says whether the item was added, the third one is the old
value. -/
def replaceOne (ht : Ihash V) (key : ℕ) (value : V) : Ihash V × Bool × Option V :=
  let (idx, firstFree) := ht.replaceIndex key
  let old := ht.indexValid idx key
  let ht := if old.isSome then ht.locpRemove idx else ht
  let firstFree := if ht.indexEmpty firstFree then firstFree else idx
  if ht.indexEmpty firstFree then (ht.store firstFree key value, true, old) else (ht, false, old)

/-- `hurd_ihash_buffer_size`, in slots. -/
def bufferSize (count maxLoad : ℕ) : Option ℕ :=
  let maxLoad := if maxLoad = 0 then 80 else if maxLoad > 100 then 100 else maxLoad
  ihashSizes.find? fun size => count * 100 / maxLoad ≤ size

/-- The body of the loop of `hurd_ihash_replace` that stores the items of the old table. -/
def rehashOne (old ht : Ihash V) (i : ℕ) : Except Fault (Ihash V) :=
  match (old.items i).value with
  | .live v => do
    let (ht, added, _) := ht.replaceOne (old.items i).key v
    require (added = true) .assertion
    pure ht
  | .empty | .deleted => pure ht

def rehash (old ht : Ihash V) : Except Fault (Ihash V) :=
  (List.range old.size).foldlM (rehashOne old) ht

/-- The part of `hurd_ihash_replace` that makes the table larger. `calloc` says whether there is
memory. -/
def grow (calloc : Bool) (ht : Ihash V) (key : ℕ) (item : V) :
    Except Fault (Ihash V × IhashReply V) :=
  match bufferSize (ht.size + 1) ht.maxLoad with
  | none => pure (ht, .nomem)
  | some size =>
    if calloc then do
      let new ← rehash ht { ht with
        nrItems := 0, size, array := ht.array + 1, items := fun _ => ⟨.empty, 0⟩ }
      let (new, added, old) := new.replaceOne key item
      require (added = true) .assertion
      pure (new, .done old)
    else pure (ht, .nomem)

/-- `hurd_ihash_replace`, and `hurd_ihash_add`, which drops the old value. -/
def replace (calloc : Bool) (ht : Ihash V) (key : ℕ) (item : V) :
    Except Fault (Ihash V × IhashReply V) :=
  if ht.size ≠ 0 ∧ ht.nrItems * 100 / ht.size ≤ ht.maxLoad then
    match ht.replaceOne key item with
    | (new, true, old) => pure (new, .done old)
    | (ht, false, _) => grow calloc ht key item
  else grow calloc ht key item

/-- `hurd_ihash_find`. -/
def find (ht : Ihash V) (key : ℕ) : Option V :=
  if ht.size = 0 then none else ht.indexValid (ht.findIndex key) key

/-- `hurd_ihash_remove`. -/
def remove (ht : Ihash V) (key : ℕ) : Ihash V × Bool :=
  if ht.size = 0 then (ht, false)
  else if (ht.indexValid (ht.findIndex key) key).isSome then
    (ht.locpRemove (ht.findIndex key), true)
  else (ht, false)

/-! ### Where searches go -/

variable {calloc : Bool} {old : Ihash V} {slots : List ℕ} {i j size : ℕ} {found : ℕ × ℕ}

section Search

omit [DecidableEq V]

variable {ht : Ihash V} {key home : ℕ}

/-- The order in which slots are probed. -/
def probe (size key : ℕ) : List ℕ :=
  key % size :: twoSided size size (key % size) (key % size) 1

theorem stops_iff : ht.stops key i = true ↔ (ht.items i).Stops key := by
  rw [stops, Item.Stops]
  cases (ht.items i).value <;> simp

theorem indexValid_eq_some {v : V} :
    ht.indexValid i key = some v ↔ (ht.items i).value = .live v ∧ (ht.items i).key = key := by
  rw [indexValid]
  cases (ht.items i).value <;> simp [and_comm]

theorem indexEmpty_iff : ht.indexEmpty i = true ↔ ∀ v, (ht.items i).value ≠ .live v := by
  rw [indexEmpty]
  cases (ht.items i).value <;> simp

theorem isDeleted_iff : ht.isDeleted i = true ↔ (ht.items i).value = .deleted := by
  rw [isDeleted]
  cases (ht.items i).value <;> simp

theorem twoSided_succ (size n up down i : ℕ) : twoSided size (n + 1) up down i =
    (up + i) % size :: nextDown size down i :: if (i + 2) % size = 0 then []
      else twoSided size n ((up + i) % size) (nextDown size down i) ((i + 2) % size) := rfl

/-- The loop of `find_index` takes the first slot where a search stops. -/
theorem findLoop_eq (ht : Ihash V) (key home n up down i : ℕ) :
    ht.findLoop key home n up down i =
      ((twoSided ht.size n up down i).find? (ht.stops key)).getD home := by
  induction n generalizing up down i with
  | zero => rfl
  | succ n ih =>
    rw [twoSided_succ, findLoop]
    by_cases hup : ht.stops key ((up + i) % ht.size) = true
    · simp [hup]
    · by_cases hdown : ht.stops key (nextDown ht.size down i) = true
      · simp [hup, hdown]
      · simp only [hup, hdown, find?_cons]
        by_cases hend : (i + 2) % ht.size = 0
        · simp [hend]
        · simp [hend, ih]

theorem findIndex_eq (ht : Ihash V) (key : ℕ) :
    ht.findIndex key = ((probe ht.size key).find? (ht.stops key)).getD (key % ht.size) := by
  rw [findIndex, probe, find?_cons]
  cases ht.stops key (key % ht.size)
  · simp [findLoop_eq]
  · simp

/-- What `replace_one` finds in the slots it probes: where the search stops, if it does, and a
deleted slot before, if there is one. -/
def Finds (ht : Ihash V) (key home : ℕ) (slots : List ℕ) (firstFree : ℕ) (found : ℕ × ℕ) : Prop :=
  ∃ pre, (∀ j ∈ pre, ¬ (ht.items j).Stops key) ∧
    (found.2 = firstFree ∨ found.2 ∈ pre ∧ (ht.items found.2).value = .deleted) ∧
    ((∃ post, slots = pre ++ found.1 :: post ∧ (ht.items found.1).Stops key) ∨
      slots = pre ∧ found.1 = home)

theorem Finds.here {x free : ℕ} (hx : ht.stops key x = true) :
    ht.Finds key home (x :: slots) free (x, free) :=
  ⟨[], by simp, .inl rfl, .inl ⟨slots, rfl, stops_iff.1 hx⟩⟩

theorem Finds.next {x free : ℕ} (hx : ht.stops key x = false)
    (h : ht.Finds key home slots (if free = home ∧ ht.isDeleted x then x else free) found) :
    ht.Finds key home (x :: slots) free found := by
  obtain ⟨pre, hpre, hfree, hslots⟩ := h
  refine ⟨x :: pre, fun j hj => ?_, ?_, ?_⟩
  · rcases mem_cons.1 hj with rfl | hj
    · rw [← stops_iff, hx]
      simp
    · exact hpre j hj
  · rcases hfree with hfree | ⟨hmem, hdeleted⟩
    · split at hfree
      · next hcond =>
        exact .inr ⟨by simp [hfree], hfree ▸ isDeleted_iff.1 hcond.2⟩
      · exact .inl hfree
    · exact .inr ⟨mem_cons_of_mem _ hmem, hdeleted⟩
  · rcases hslots with ⟨post, rfl, hstop⟩ | ⟨rfl, hidx⟩
    · exact .inl ⟨post, rfl, hstop⟩
    · exact .inr ⟨rfl, hidx⟩

theorem replaceLoop_finds (ht : Ihash V) (key home n up down i firstFree : ℕ) :
    ht.Finds key home (twoSided ht.size n up down i) firstFree
      (ht.replaceLoop key home n up down i firstFree) := by
  induction n generalizing up down i firstFree with
  | zero => exact ⟨[], by simp, .inl rfl, .inr ⟨rfl, rfl⟩⟩
  | succ n ih =>
    rw [replaceLoop, twoSided_succ]
    by_cases hup : ht.stops key ((up + i) % ht.size) = true
    · simp only [hup, if_true]
      exact .here hup
    · simp only [hup]
      refine .next (by simpa using hup) ?_
      by_cases hdown : ht.stops key (nextDown ht.size down i) = true
      · simp only [hdown, if_true]
        exact .here hdown
      · simp only [hdown]
        refine .next (by simpa using hdown) ?_
        by_cases hend : (i + 2) % ht.size = 0
        · simp only [hend, if_true]
          exact ⟨[], by simp, .inl rfl, .inr ⟨rfl, rfl⟩⟩
        · simp only [hend]
          exact ih ..

theorem replaceIndex_finds (ht : Ihash V) (key : ℕ) :
    ht.Finds key (key % ht.size) (probe ht.size key) (key % ht.size) (ht.replaceIndex key) := by
  rw [replaceIndex, probe]
  split
  · next hhome => exact .here hhome
  · next hhome =>
    refine .next (by simpa using hhome) ?_
    rw [ite_self]
    exact replaceLoop_finds ..

/-- A search that gets to a slot where it stops finds the slot. -/
theorem find?_of_reaches (h : Reaches ht.items (probe ht.size) key i)
    (hstop : (ht.items i).Stops key) : (probe ht.size key).find? (ht.stops key) = some i := by
  obtain ⟨pre, post, hprobe, hpre⟩ := h
  rw [hprobe, find?_eq_some_iff_append]
  refine ⟨stops_iff.2 hstop, pre, post, rfl, fun j hj => ?_⟩
  rw [Bool.not_eq_true', Bool.eq_false_iff, ne_eq, stops_iff]
  exact hpre j hj

/-- `replace_one` looks for the key where `find_index` does. -/
theorem replaceIndex_fst (ht : Ihash V) (key : ℕ) : (ht.replaceIndex key).1 = ht.findIndex key := by
  rw [findIndex_eq]
  obtain ⟨pre, hpre, -, ⟨post, hslots, hstop⟩ | ⟨hslots, hidx⟩⟩ := ht.replaceIndex_finds key
  · rw [find?_of_reaches ⟨pre, post, hslots, hpre⟩ hstop]
    rfl
  · have hnone : (probe ht.size key).find? (ht.stops key) = none := by
      rw [hslots, find?_eq_none]
      exact fun j hj => by
        rw [stops_iff]
        exact hpre j hj
    rw [hnone, hidx]
    rfl

theorem lt_of_mem_twoSided {n up down x : ℕ} (hsize : 0 < size)
    (hx : x ∈ twoSided size n up down i) : x < size := by
  induction n generalizing up down i with
  | zero => simp [twoSided] at hx
  | succ n ih =>
    rw [twoSided_succ, mem_cons, mem_cons] at hx
    rcases hx with rfl | rfl | hx
    · exact Nat.mod_lt _ hsize
    · exact Nat.mod_lt _ hsize
    · split at hx
      · simp at hx
      · exact ih hx

theorem lt_of_mem_probe {x : ℕ} (hsize : 0 < size) (hx : x ∈ probe size key) : x < size := by
  rcases mem_cons.1 hx with rfl | hx
  · exact Nat.mod_lt _ hsize
  · exact lt_of_mem_twoSided hsize hx

end Search

/-! ### One item -/

section One

omit [DecidableEq V]

/-- A slot holds a value under a key. -/
def Holds (ht : Ihash V) (i key : ℕ) (v : V) : Prop := ht.items i = ⟨.live v, key⟩

/-- The slots that are live. -/
def liveSlots (ht : Ihash V) : Finset ℕ := (Finset.range ht.size).filter (ht.indexEmpty · = false)

/-- **The table is in order.** -/
structure Valid (ht : Ihash V) : Prop where
  size : ht.size = 0 ∨ ht.size ∈ ihashSizes
  sound : Sound ht.items (probe ht.size)
  inside : ∀ i v, (ht.items i).value = .live v → i < ht.size
  count : ht.nrItems = ht.liveSlots.card

variable {ht : Ihash V} {key i : ℕ} {v : V}

theorem Holds.live (h : ht.Holds i key v) : (ht.items i).value = .live v := by rw [h]

theorem holds_iff : ht.Holds i key v ↔ (ht.items i).value = .live v ∧ (ht.items i).key = key := by
  rw [Holds]
  constructor
  · intro h
    rw [h]
    exact ⟨rfl, rfl⟩
  · rintro ⟨hvalue, hkey⟩
    rw [← hvalue, ← hkey]

theorem mem_liveSlots (h : Valid ht) : i ∈ ht.liveSlots ↔ ∃ v, (ht.items i).value = .live v := by
  rw [liveSlots, Finset.mem_filter, Finset.mem_range, Bool.eq_false_iff, ne_eq, indexEmpty_iff]
  simp only [ne_eq, not_forall, not_not]
  exact ⟨And.right, fun ⟨v, hv⟩ => ⟨h.inside i v hv, v, hv⟩⟩

/-- **A search** finds what is stored under the key. -/
theorem Valid.find_iff (h : Valid ht) : ht.find key = some v ↔ ∃ i, ht.Holds i key v := by
  simp only [holds_iff]
  constructor
  · intro hfind
    rw [find] at hfind
    split at hfind
    · simp at hfind
    · exact ⟨_, indexValid_eq_some.1 hfind⟩
  · rintro ⟨i, hvalue, hkey⟩
    have hsize : ht.size ≠ 0 := by
      have := h.inside i v hvalue
      omega
    have hreach := h.sound i v hvalue
    rw [hkey] at hreach
    rw [find, if_neg hsize, findIndex_eq, find?_of_reaches hreach (.inr hkey)]
    exact indexValid_eq_some.2 ⟨hvalue, hkey⟩

theorem Valid.unique (h : Valid ht) {w : V} (hi : ht.Holds i key v)
    (hj : ht.Holds j key w) : i = j ∧ v = w := by
  have heq := h.sound.unique hi.live hj.live (by rw [(holds_iff.1 hi).2, (holds_iff.1 hj).2])
  subst heq
  have := hi.live.symm.trans hj.live
  exact ⟨rfl, by simpa using this⟩

/-- A table of empty slots. -/
theorem valid_empty (ht : Ihash V) (hempty : ∀ i, (ht.items i).value = .empty)
    (hcount : ht.nrItems = 0) (hsize : ht.size = 0 ∨ ht.size ∈ ihashSizes) :
    Valid ht ∧ ∀ i k v, ¬ ht.Holds i k v :=
  ⟨⟨hsize, fun i v hi => by simp [hempty] at hi, fun i v hi => by simp [hempty] at hi,
    by simp [liveSlots, indexEmpty, hempty, hcount]⟩,
    fun i k v hi => by simpa [hempty] using hi.live⟩

/-- Removing what a slot holds. -/
theorem Valid.locpRemove (h : Valid ht) (hi : ht.Holds i key v) :
    Valid (ht.locpRemove i) ∧
      ∀ j k w, (ht.locpRemove i).Holds j k w ↔ k ≠ key ∧ ht.Holds j k w := by
  have hvalue := hi.live
  have hholds : ∀ j k w, (ht.locpRemove i).Holds j k w ↔ k ≠ key ∧ ht.Holds j k w := by
    intro j k w
    by_cases hj : j = i
    · subst hj
      simp only [holds_iff, Ihash.locpRemove, update_self, reduceCtorEq, false_and,
        false_iff, not_and]
      rintro hk - rfl
      exact hk (holds_iff.1 hi).2
    · simp only [Holds, Ihash.locpRemove, update_of_ne hj]
      refine ⟨fun hjw => ⟨?_, hjw⟩, And.right⟩
      rintro rfl
      exact hj (h.unique hjw hi).1
  have hlive : ∀ j w, ((ht.locpRemove i).items j).value = .live w → j ≠ i ∧
      (ht.items j).value = .live w := by
    intro j w hj
    have hji : j ≠ i := by
      rintro rfl
      simp [Ihash.locpRemove] at hj
    simp only [Ihash.locpRemove, update_of_ne hji] at hj
    exact ⟨hji, hj⟩
  refine ⟨⟨h.size, h.sound.delete (by simp [hvalue]), fun j w hj => h.inside j w (hlive j w hj).2,
    ?_⟩, hholds⟩
  have hslots : (ht.locpRemove i).liveSlots = ht.liveSlots.erase i := by
    ext j
    rw [Finset.mem_erase, liveSlots, liveSlots, Finset.mem_filter, Finset.mem_filter]
    by_cases hj : j = i
    · subst hj
      simp [indexEmpty, Ihash.locpRemove]
    · simp [indexEmpty, Ihash.locpRemove, hj]
  rw [hslots, Finset.card_erase_of_mem ((mem_liveSlots h).2 ⟨v, hvalue⟩), ← h.count]
  rfl

/-- Storing an item in a free slot that the search for its key gets to. -/
theorem Valid.store [DecidableEq V] (h : Valid ht)
    (hreach : Reaches ht.items (probe ht.size) key i) (hi : i < ht.size)
    (hfree : ht.indexEmpty i = true) (hnew : ∀ j w, ¬ ht.Holds j key w) (v : V) :
    Valid (ht.store i key v) ∧
      ∀ j k w, (ht.store i key v).Holds j k w ↔ (j = i ∧ k = key ∧ w = v) ∨ ht.Holds j k w := by
  have hfree' := indexEmpty_iff.1 hfree
  refine ⟨⟨h.size, ?_, fun j w hj => ?_, ?_⟩, fun j k w => ?_⟩
  · exact h.sound.put v hreach fun j w _ hj hkey => hnew j w (holds_iff.2 ⟨hj, hkey⟩)
  · by_cases hji : j = i
    · rw [hji]
      exact hi
    · simp only [Ihash.store, update_of_ne hji] at hj
      exact h.inside j w hj
  · have hslots : (ht.store i key v).liveSlots = insert i ht.liveSlots := by
      ext j
      rw [Finset.mem_insert, liveSlots, liveSlots, Finset.mem_filter, Finset.mem_filter]
      by_cases hj : j = i
      · subst hj
        simp [indexEmpty, Ihash.store, hi]
      · simp [indexEmpty, Ihash.store, hj]
    rw [hslots, Finset.card_insert_of_notMem, ← h.count]
    · rfl
    · rw [mem_liveSlots h]
      rintro ⟨w, hw⟩
      exact hfree' w hw
  · by_cases hj : j = i
    · subst hj
      simp only [Holds, Ihash.store, update_self, true_and]
      constructor
      · intro heq
        simp only [Item.mk.injEq, Cell.live.injEq] at heq
        exact .inl ⟨heq.2.symm, heq.1.symm⟩
      · rintro (⟨rfl, rfl⟩ | hjw)
        · rfl
        · exact absurd (by rw [hjw]) (hfree' w)
    · simp [Holds, Ihash.store, hj]

end One

/-! ### `replace_one` -/

section Replace

variable {ht ht' : Ihash V} {key : ℕ} {v : V}

/-- An item is stored under a key, in the same array. -/
structure Puts (ht : Ihash V) (key : ℕ) (v : V) (ht' : Ihash V) : Prop where
  valid : Valid ht'
  size : ht'.size = ht.size
  array : ht'.array = ht.array
  locp : ht'.locp = ht.locp
  maxLoad : ht'.maxLoad = ht.maxLoad
  count : ht'.nrItems ≤ ht.nrItems + 1
  deleted : ht.find key = none → ∀ i, (ht'.items i).value = .deleted →
    (ht.items i).value = .deleted
  holds : ∃ i, (∀ j k w, ht'.Holds j k w ↔ (j = i ∧ k = key ∧ w = v) ∨ k ≠ key ∧ ht.Holds j k w) ∧
    ht'.location =
      if ht.locp then update ht.location v (some (ht.array, i)) else ht.location

omit [DecidableEq V] in
theorem Finds.reaches (h : ht.Finds key (key % ht.size) (probe ht.size key) (key % ht.size) found) :
    Reaches ht.items (probe ht.size) key found.1 ∧
      Reaches ht.items (probe ht.size) key found.2 := by
  have hhome : Reaches ht.items (probe ht.size) key (key % ht.size) := ⟨[], _, rfl, by simp⟩
  obtain ⟨pre, hpre, hfree, hslots⟩ := h
  have hprefix : ∃ post, probe ht.size key = pre ++ post := by
    rcases hslots with ⟨post, hslots, -⟩ | ⟨hslots, -⟩
    · exact ⟨_, hslots⟩
    · exact ⟨[], by simp [hslots]⟩
  constructor
  · rcases hslots with ⟨post, hslots, -⟩ | ⟨-, hidx⟩
    · exact ⟨pre, post, hslots, hpre⟩
    · rwa [hidx]
  · rcases hfree with hfree | ⟨hmem, -⟩
    · rwa [hfree]
    · obtain ⟨post, hslots⟩ := hprefix
      obtain ⟨as, bs, rfl⟩ := append_of_mem hmem
      exact ⟨as, bs ++ post, by simp [hslots], fun j hj => hpre j (by simp [hj])⟩

omit [DecidableEq V] in
/-- Removing what a slot holds does not keep a search from a slot. -/
theorem reaches_locpRemove (h : Reaches ht.items (probe ht.size) key j) :
    Reaches (ht.locpRemove i).items (probe ht.size) key j := by
  obtain ⟨pre, post, hprobe, hpre⟩ := h
  refine ⟨pre, post, hprobe, fun x hx hstop => hpre x hx ?_⟩
  by_cases hxi : x = i
  · subst hxi
    simp only [locpRemove, update_self, Item.Stops, reduceCtorEq, false_or] at hstop
    exact .inr hstop
  · simpa only [locpRemove, update_of_ne hxi] using hstop

omit [DecidableEq V] in
theorem lt_of_reaches (hsize : 0 < ht.size)
    (h : Reaches ht.items (probe ht.size) key i) : i < ht.size := by
  obtain ⟨pre, post, hprobe, -⟩ := h
  exact lt_of_mem_probe hsize (by rw [hprobe]; simp)

omit [DecidableEq V] in
theorem find_eq_indexValid (hsize : 0 < ht.size) :
    ht.find key = ht.indexValid (ht.replaceIndex key).1 key := by
  rw [find, if_neg (by omega), replaceIndex_fst]

/-- The table after `replace_one` has removed the old item. -/
def cleared (ht : Ihash V) (key : ℕ) : Ihash V :=
  if (ht.indexValid (ht.replaceIndex key).1 key).isSome then ht.locpRemove (ht.replaceIndex key).1
  else ht

omit [DecidableEq V] in
theorem Valid.cleared (h : Valid ht) (hsize : 0 < ht.size) (key : ℕ) :
    Valid (ht.cleared key) ∧
      ∀ j k w, (ht.cleared key).Holds j k w ↔ k ≠ key ∧ ht.Holds j k w := by
  rw [Ihash.cleared]
  cases hold : ht.indexValid (ht.replaceIndex key).1 key with
  | some w => exact h.locpRemove (holds_iff.2 (indexValid_eq_some.1 hold))
  | none =>
    refine ⟨h, fun j k w => ⟨fun hj => ⟨?_, hj⟩, And.right⟩⟩
    rintro rfl
    have hfind := h.find_iff.2 ⟨j, hj⟩
    rw [find_eq_indexValid hsize, hold] at hfind
    simp at hfind

omit [DecidableEq V] in
/-- A slot where the search stops is free once the old item is removed. -/
theorem indexEmpty_cleared (hstop : (ht.items (ht.replaceIndex key).1).Stops key) :
    (ht.cleared key).indexEmpty (ht.replaceIndex key).1 = true := by
  rw [cleared]
  cases hold : ht.indexValid (ht.replaceIndex key).1 key with
  | some w => simp [indexEmpty, locpRemove]
  | none =>
    refine indexEmpty_iff.2 fun w hw => ?_
    have hw : (ht.items (ht.replaceIndex key).1).value = .live w := hw
    rcases hstop with hempty | hkey
    · simp [hempty] at hw
    · rw [indexValid_eq_some.2 ⟨hw, hkey⟩] at hold
      simp at hold

/-- **What `replace_one` does**: it stores the item, or finds no slot and does nothing. -/
theorem replaceOne_spec (h : Valid ht) (hsize : 0 < ht.size) (key : ℕ) (v : V) :
    (∃ ht', ht.replaceOne key v = (ht', true, ht.find key) ∧ Puts ht key v ht') ∨
      ht.replaceOne key v = (ht, false, ht.find key) ∧
        ∀ j ∈ probe ht.size key, (ht.items j).value ≠ .empty := by
  have hfinds := ht.replaceIndex_finds key
  obtain ⟨hidx, hfree⟩ := hfinds.reaches
  obtain ⟨hvalid, hholds⟩ := h.cleared hsize key
  have hsame : (ht.cleared key).size = ht.size ∧ (ht.cleared key).array = ht.array ∧
      (ht.cleared key).locp = ht.locp ∧ (ht.cleared key).maxLoad = ht.maxLoad ∧
      (ht.cleared key).location = ht.location := by
    rw [cleared]
    split <;> exact ⟨rfl, rfl, rfl, rfl, rfl⟩
  have hreach : ∀ {i}, Reaches ht.items (probe ht.size) key i →
      Reaches (ht.cleared key).items (probe (ht.cleared key).size) key i := fun hi => by
    rw [hsame.1, cleared]
    split
    · exact reaches_locpRemove hi
    · exact hi
  set target := if (ht.cleared key).indexEmpty (ht.replaceIndex key).2 then (ht.replaceIndex key).2
    else (ht.replaceIndex key).1 with htarget
  have hcode : ht.replaceOne key v = if (ht.cleared key).indexEmpty target then
      ((ht.cleared key).store target key v, true, ht.find key)
      else (ht.cleared key, false, ht.find key) := by
    rw [find_eq_indexValid hsize]
    rfl
  have htargetReach : Reaches ht.items (probe ht.size) key target := by
    rw [htarget]
    split
    · exact hfree
    · exact hidx
  by_cases hempty : (ht.cleared key).indexEmpty target = true
  · refine .inl ⟨_, hcode.trans (if_pos hempty), ?_⟩
    have hlt := lt_of_reaches hsize htargetReach
    obtain ⟨hvalid', hholds'⟩ := hvalid.store (hreach htargetReach) (by rwa [hsame.1]) hempty
      (fun j w hj => ((hholds j key w).1 hj).1 rfl) v
    refine ⟨hvalid', hsame.1, hsame.2.1, hsame.2.2.1, hsame.2.2.2.1, ?_, fun hnone i hi => ?_,
      target, fun j k w => ?_, ?_⟩
    · refine Nat.add_le_add_right (?_ : (ht.cleared key).nrItems ≤ ht.nrItems) 1
      rw [cleared]
      split
      · exact Nat.sub_le ..
      · exact le_rfl
    · rw [find_eq_indexValid hsize] at hnone
      by_cases hit : i = target
      · simp [hit, store] at hi
      · simpa [store, hit, cleared, hnone] using hi
    · rw [hholds', hholds]
    · simp only [store, hsame]
  · refine .inr ?_
    -- no slot is free, not even the one where the search stopped
    have hnostop : ¬ (ht.items (ht.replaceIndex key).1).Stops key := fun hstop => by
      have hfreed := indexEmpty_cleared hstop
      rw [htarget] at hempty
      split at hempty
      · next hfree => exact hempty hfree
      · exact hempty hfreed
    have hnone : ht.indexValid (ht.replaceIndex key).1 key = none := by
      by_contra hsome
      obtain ⟨w, hw⟩ := ne_none_iff_exists'.1 hsome
      exact hnostop (.inr (indexValid_eq_some.1 hw).2)
    have hcleared : ht.cleared key = ht := by simp [cleared, hnone]
    refine ⟨?_, fun j hj => ?_⟩
    · rw [hcode, if_neg hempty, hcleared]
    · obtain ⟨pre, hpre, -, ⟨post, -, hstop⟩ | ⟨hslots, -⟩⟩ := hfinds
      · exact absurd hstop hnostop
      · exact fun hj' => hpre j (hslots ▸ hj) (.inl hj')

end Replace

/-! ### Growing -/

section Grow

variable {ht ht' : Ihash V} {key : ℕ} {v : V}

/-- Tables below `2 ^ 24` slots have sizes where every slot is probed. -/
theorem prime_of_mem_ihashSizes (h : size ∈ ihashSizes) (hsize : size < 2 ^ 24) :
    size.Prime ∧ size % 4 = 3 := by
  rw [ihashSizes] at h
  fin_cases h
  all_goals first | omega | norm_num

theorem lt_bufferSize {count maxLoad : ℕ} (h : bufferSize count maxLoad = some size) :
    count ≤ size ∧ size ∈ ihashSizes := by
  obtain ⟨hle, pre, post, hlist, -⟩ := find?_eq_some_iff_append.1 h
  refine ⟨le_trans ?_ (of_decide_eq_true hle), by rw [hlist]; simp⟩
  set load := if maxLoad = 0 then 80 else if maxLoad > 100 then 100 else maxLoad with hload
  have hbounds : 0 < load ∧ load ≤ 100 := by
    rw [hload]
    split
    · omega
    · split <;> omega
  rw [Nat.le_div_iff_mul_le hbounds.1]
  exact Nat.mul_le_mul_left count hbounds.2

/-- Each item's location pointer designates its slot. -/
def Located (ht : Ihash V) : Prop := ∀ i k w, ht.Holds i k w → ht.location w = some (ht.array, i)

/-- No item is stored under two keys. -/
def Apart (ht : Ihash V) : Prop := ∀ i j k k' w, ht.Holds i k w → ht.Holds j k' w → k = k'

theorem Puts.located (h : Puts ht key v ht') (hlocp : ht.locp = true) (hlocated : Located ht)
    (hfresh : ∀ j k, k ≠ key → ¬ ht.Holds j k v) : Located ht' := by
  obtain ⟨i, hholds, hlocation⟩ := h.holds
  intro j k w hj
  rw [hlocation, if_pos hlocp, h.array]
  rcases (hholds j k w).1 hj with ⟨rfl, rfl, rfl⟩ | ⟨hk, hj⟩
  · exact update_self ..
  · have hwv : w ≠ v := by
      rintro rfl
      exact hfresh j k hk hj
    rw [update_of_ne hwv]
    exact hlocated j k w hj

/-- The new table while the items of the slots below `n` have been stored in it. -/
structure Rehashed (old : Ihash V) (size n : ℕ) (ht : Ihash V) : Prop where
  valid : Valid ht
  size_eq : ht.size = size
  array : ht.array = old.array + 1
  locp : ht.locp = old.locp
  maxLoad : ht.maxLoad = old.maxLoad
  count : ht.nrItems ≤ n
  clean : ∀ i, (ht.items i).value ≠ .deleted
  holds : ∀ k w, (∃ j, ht.Holds j k w) ↔ ∃ i < n, old.Holds i k w
  located : old.locp = true → Apart old → Located ht

/-- A table without deleted slots that is not full takes an item. -/
theorem Rehashed.put {n : ℕ} (h : Rehashed old size n ht)
    (hprime : size.Prime ∧ size % 4 = 3) (hn : n < size) (key : ℕ) (v : V) :
    ∃ ht', ht.replaceOne key v = (ht', true, ht.find key) ∧ Puts ht key v ht' := by
  have hsize : 0 < ht.size := by
    rw [h.size_eq]
    omega
  rcases replaceOne_spec h.valid hsize key v with hput | ⟨-, hfull⟩
  · exact hput
  · -- every slot is probed, so every slot is live
    have hslots : ht.liveSlots = Finset.range ht.size := by
      refine Finset.filter_true_of_mem fun i hi => ?_
      have hmem : i ∈ probe ht.size key := by
        rw [h.size_eq] at hi ⊢
        exact mem_probe hprime.1 hprime.2 (Nat.mod_lt _ (by omega)) (Finset.mem_range.1 hi)
      rw [indexEmpty]
      cases hvalue : (ht.items i).value with
      | empty => exact absurd hvalue (hfull i hmem)
      | deleted => exact absurd hvalue (h.clean i)
      | live w => rfl
    have hcount := h.valid.count
    have hle := h.count
    rw [hslots, Finset.card_range, h.size_eq] at hcount
    omega

/-- The item of the next slot of the old table is stored. -/
theorem Rehashed.step {n : ℕ} (h : Rehashed old size n ht) (hold : Valid old)
    (hprime : size.Prime ∧ size % 4 = 3) (hn : n < size) :
    ∃ ht', rehashOne old ht n = .ok ht' ∧ Rehashed old size (n + 1) ht' := by
  by_cases hlive : ∃ v, (old.items n).value = .live v
  · obtain ⟨v, hv⟩ := hlive
    have hitem : old.Holds n (old.items n).key v := holds_iff.2 ⟨hv, rfl⟩
    obtain ⟨ht', hok, hput⟩ := h.put hprime hn (old.items n).key v
    -- the key is not live in an earlier slot
    have hearlier : ∀ i < n, ∀ w, ¬ old.Holds i (old.items n).key w := fun i hi w hw => by
      have := (hold.unique hw hitem).1
      omega
    have hnone : ht.find (old.items n).key = none := by
      refine eq_none_iff_forall_ne_some.2 fun w hw => ?_
      obtain ⟨i, hi, hw⟩ := (h.holds _ w).1 (h.valid.find_iff.1 hw)
      exact hearlier i hi w hw
    refine ⟨ht', ?_, hput.valid, hput.size.trans h.size_eq, hput.array.trans h.array,
      hput.locp.trans h.locp, hput.maxLoad.trans h.maxLoad, ?_, fun i hi => ?_, fun k w => ?_,
      fun hlocp hapart => ?_⟩
    · simp only [rehashOne, hv, hok, require_of, ok_bind]
      rfl
    · exact hput.count.trans (Nat.add_le_add_right h.count 1)
    · exact h.clean i (hput.deleted hnone i hi)
    · obtain ⟨t, hholds, -⟩ := hput.holds
      simp only [hholds, Nat.lt_succ_iff_lt_or_eq, or_and_right, exists_or, exists_eq_left,
        exists_and_left, h.holds]
      constructor
      · rintro (⟨rfl, rfl⟩ | ⟨-, hw⟩)
        · exact .inr hitem
        · exact .inl hw
      · rintro (⟨i, hi, hw⟩ | hw)
        · refine .inr ⟨?_, i, hi, hw⟩
          rintro rfl
          exact hearlier i hi w hw
        · refine .inl ⟨(holds_iff.1 hw).2.symm, ?_⟩
          have := hw.live.symm.trans hv
          simpa using this
    · refine hput.located (h.locp.trans hlocp) (h.located hlocp hapart) fun j k hk hj => hk ?_
      obtain ⟨i, -, hi⟩ := (h.holds k v).1 ⟨j, hj⟩
      exact hapart i n k _ v hi hitem
  · have hcell : rehashOne old ht n = .ok ht := by
      rw [rehashOne]
      cases hv : (old.items n).value with
      | live v => exact absurd ⟨v, hv⟩ hlive
      | empty | deleted => rfl
    refine ⟨ht, hcell, { h with count := h.count.trans (Nat.le_succ n), holds := fun k w => ?_ }⟩
    rw [h.holds]
    simp only [Nat.lt_succ_iff_lt_or_eq, or_and_right, exists_or, exists_eq_left]
    refine ⟨.inl, fun hw => hw.resolve_right fun hw => hlive ⟨w, hw.live⟩⟩

/-- Storing the items of the old table one by one. -/
theorem rehash_spec (hold : Valid old)
    (hprime : size.Prime ∧ size % 4 = 3) (hsize : size ∈ ihashSizes) (hgrow : old.size < size) :
    ∃ ht, rehash old { old with
      nrItems := 0, size, array := old.array + 1, items := fun _ => ⟨.empty, 0⟩ } = .ok ht ∧
      Rehashed old size old.size ht := by
  set new : Ihash V := { old with
    nrItems := 0, size, array := old.array + 1, items := fun _ => ⟨.empty, 0⟩ } with hnew
  obtain ⟨hvalid, hnone⟩ := valid_empty new (fun _ => rfl) rfl (.inr hsize)
  have hstart : Rehashed old size 0 new :=
    ⟨hvalid, rfl, rfl, rfl, rfl, le_rfl, fun i => by simp [hnew], fun k w => by simp [hnone],
      fun _ _ i k w hi => absurd hi (hnone i k w)⟩
  -- by induction on the number of slots gone through
  have hloop : ∀ n ≤ old.size, ∃ ht, (List.range n).foldlM (rehashOne old) new = .ok ht ∧
      Rehashed old size n ht := by
    intro n
    induction n with
    | zero => exact fun _ => ⟨new, rfl, hstart⟩
    | succ n ih =>
      intro hn
      obtain ⟨ht, hok, hre⟩ := ih (by omega)
      obtain ⟨ht', hok', hre'⟩ := hre.step hold hprime (by omega)
      refine ⟨ht', ?_, hre'⟩
      rw [range_succ, foldlM_append, hok, ok_bind, foldlM_cons, hok', ok_bind]
      rfl
  exact hloop old.size le_rfl

/-- An item is stored under a key, in the table or in a larger one. -/
structure Stores (ht : Ihash V) (key : ℕ) (v : V) (ht' : Ihash V) : Prop where
  valid : Valid ht'
  locp : ht'.locp = ht.locp
  holds : ∀ k w, (∃ j, ht'.Holds j k w) ↔ (k = key ∧ w = v) ∨ k ≠ key ∧ ∃ j, ht.Holds j k w
  located : ht.locp = true → Located ht → Apart ht → (∀ j k, k ≠ key → ¬ ht.Holds j k v) →
    Located ht'

theorem Puts.stores (h : Puts ht key v ht') : Stores ht key v ht' := by
  refine ⟨h.valid, h.locp, fun k w => ?_, fun hlocp hlocated _ => h.located hlocp hlocated⟩
  obtain ⟨i, hholds, -⟩ := h.holds
  simp only [hholds, exists_or, exists_eq_left, exists_and_left]

/-- `replace_one` keeps the size. -/
theorem replaceOne_size (ht : Ihash V) (key : ℕ) (v : V) :
    (ht.replaceOne key v).1.size = ht.size := by
  have hstore : ∀ (t : Ihash V) (c : Bool) (i : ℕ) (old : Option V), t.size = ht.size →
      (if c = true then (t.store i key v, true, old) else (t, false, old)).1.size = ht.size :=
    fun t c i old h => by cases c <;> exact h
  refine hstore _ _ _ _ ?_
  split <;> rfl

/-- **Growing** a table, to a size where every slot is probed, succeeds if there is memory. -/
theorem grow_spec (h : Valid ht)
    (hbuffer : bufferSize (ht.size + 1) ht.maxLoad = some size) (hsize : size < 2 ^ 24)
    (key : ℕ) (v : V) :
    ∃ ht', grow true ht key v = .ok (ht', .done (ht.find key)) ∧ Stores ht key v ht' := by
  obtain ⟨hgrow, hmem⟩ := lt_bufferSize hbuffer
  have hprime := prime_of_mem_ihashSizes hmem hsize
  obtain ⟨new, hok, hre⟩ := rehash_spec h hprime hmem (by omega)
  obtain ⟨ht', hlast, hput⟩ := hre.put hprime (by omega) key v
  have hholds : ∀ k w, (∃ j, new.Holds j k w) ↔ ∃ j, ht.Holds j k w := fun k w => by
    rw [hre.holds]
    exact ⟨fun ⟨i, _, hi⟩ => ⟨i, hi⟩, fun ⟨i, hi⟩ => ⟨i, h.inside i w hi.live, hi⟩⟩
  have hfind : new.find key = ht.find key := ext fun w => by
    rw [hre.valid.find_iff, h.find_iff, hholds]
  have hstores := hput.stores
  refine ⟨ht', ?_, hstores.valid, hstores.locp.trans hre.locp, fun k w => ?_,
    fun hlocp _ hapart hfresh => ?_⟩
  · simp only [grow, hbuffer, if_true, hok, ok_bind, hlast, require_of, hfind]
    rfl
  · rw [hstores.holds, hholds]
  · refine hput.located (hre.locp.trans hlocp) (hre.located hlocp hapart) fun j k hk hj => ?_
    obtain ⟨i, hi⟩ := (hholds k v).1 ⟨j, hj⟩
    exact hfresh i k hk hi

/-- A table that has grown has the size asked for. -/
theorem grow_size {reply : Option V} (hok : grow calloc old key v = .ok (ht', .done reply)) :
    calloc = true ∧ bufferSize (old.size + 1) old.maxLoad = some ht'.size := by
  rw [grow] at hok
  cases hbuffer : bufferSize (old.size + 1) old.maxLoad with
  | none => simp [hbuffer] at hok
  | some size =>
    cases calloc with
    | false => simp [hbuffer] at hok
    | true =>
      simp only [hbuffer, if_true] at hok
      obtain ⟨new, hnew, hrest⟩ := bind_eq_ok.1 hok
      obtain ⟨_, -, ⟨⟩⟩ := bind_pure_eq_ok.1 hrest
      have hsize : new.size = size := by
        refine foldlM_invariant (fun t => t.size = size) (fun i _ t t' hok ht => ?_) hnew rfl
        rw [rehashOne] at hok
        split at hok
        · next v _ =>
          have hsame := replaceOne_size t (old.items i).key v
          obtain ⟨_, -, rfl⟩ := bind_pure_eq_ok.1 hok
          exact hsame.trans ht
        all_goals exact pure_eq_ok.1 hok ▸ ht
      rw [replaceOne_size, hsize]
      exact ⟨rfl, rfl⟩

/-- The cases of `hurd_ihash_replace`: the item goes to the table, or the table grows. -/
theorem replace_cases (h : Valid ht) (calloc : Bool) (key : ℕ) (v : V) :
    (∃ ht', ht.replace calloc key v = .ok (ht', .done (ht.find key)) ∧ Stores ht key v ht') ∨
      ht.replace calloc key v = grow calloc ht key v := by
  rw [replace]
  split
  · next hload =>
    rcases replaceOne_spec h (Nat.pos_of_ne_zero hload.1) key v with
      ⟨ht', hok, hput⟩ | ⟨hok, -⟩
    · rw [hok]
      exact .inl ⟨ht', rfl, hput.stores⟩
    · rw [hok]
      exact .inr rfl
  · exact .inr rfl

/-- **What `hurd_ihash_replace` does.** -/
theorem replace_spec {reply : IhashReply V} (h : Valid ht)
    (hok : ht.replace calloc key v = .ok (ht', reply)) :
    (reply = .nomem → ht' = ht) ∧ ∀ old, reply = .done old → ht'.size < 2 ^ 24 →
      old = ht.find key ∧ Stores ht key v ht' := by
  rcases replace_cases h calloc key v with ⟨ht₁, hok₁, hstores⟩ | hgrow
  · obtain ⟨⟩ := Except.ok.inj (hok.symm.trans hok₁)
    refine ⟨nofun, fun old hold _ => ?_⟩
    obtain rfl := IhashReply.done.inj hold
    exact ⟨rfl, hstores⟩
  · rw [hgrow] at hok
    refine ⟨?_, ?_⟩
    · rintro rfl
      rw [grow] at hok
      split at hok
      · exact (Prod.mk.inj (pure_eq_ok.1 hok)).1.symm
      · split at hok
        · obtain ⟨_, -, hrest⟩ := bind_eq_ok.1 hok
          obtain ⟨_, -, hrest⟩ := bind_eq_ok.1 hrest
          simp [pure, Except.pure] at hrest
        · exact (Prod.mk.inj (pure_eq_ok.1 hok)).1.symm
    · rintro old rfl hsize
      obtain ⟨rfl, hbuffer⟩ := grow_size hok
      obtain ⟨ht₁, hok₁, hstores⟩ := grow_spec h hbuffer hsize key v
      obtain ⟨rfl, hold⟩ := Prod.mk.inj (Except.ok.inj (hok.symm.trans hok₁))
      exact ⟨IhashReply.done.inj hold, hstores⟩

/-- `hurd_ihash_replace` returns, unless the table would have to grow too large. -/
theorem replace_returns (h : Valid ht) (calloc : Bool) (key : ℕ) (v : V) :
    (∃ r, ht.replace calloc key v = .ok r) ∨
      ∃ size, bufferSize (ht.size + 1) ht.maxLoad = some size ∧ 2 ^ 24 ≤ size := by
  rcases replace_cases h calloc key v with ⟨ht', hok, -⟩ | hgrow
  · exact .inl ⟨_, hok⟩
  · rw [hgrow]
    cases hbuffer : bufferSize (ht.size + 1) ht.maxLoad with
    | none => exact .inl ⟨(ht, .nomem), by simp [grow, hbuffer]⟩
    | some size =>
      by_cases hsize : size < 2 ^ 24
      · cases calloc with
        | false => exact .inl ⟨(ht, .nomem), by simp [grow, hbuffer]⟩
        | true =>
          obtain ⟨ht', hok, -⟩ := grow_spec h hbuffer hsize key v
          exact .inl ⟨_, hok⟩
      · exact .inr ⟨size, rfl, Nat.le_of_not_lt hsize⟩

end Grow

/-! ### Runs -/

section Runs

/-- **A run** of the operations, with the map that it amounts to. In a run of `fresh` stores no item
is stored under a key while it is stored under another one. -/
inductive Run (fresh : Prop) : Ihash V → (ℕ → Option V) → Prop
  /-- `hurd_ihash_init` and `hurd_ihash_init_with_buffer`. -/
  | init {size array maxLoad : ℕ} {locp : Bool} {location : V → Option (ℕ × ℕ)} :
      size = 0 ∨ size ∈ ihashSizes → size < 2 ^ 24 →
      Run fresh ⟨0, array, fun _ => ⟨.empty, 0⟩, size, locp, maxLoad, location⟩ fun _ => none
  | replace {ht ht' : Ihash V} {M : ℕ → Option V} {calloc : Bool} {key : ℕ} {item : V}
      {old : Option V} :
      Run fresh ht M → ht.replace calloc key item = .ok (ht', .done old) → ht'.size < 2 ^ 24 →
      (fresh → ∀ k ≠ key, M k ≠ some item) →
      Run fresh ht' (update M key (some item))
  | nomem {ht ht' : Ihash V} {M : ℕ → Option V} {calloc : Bool} {key : ℕ} {item : V} :
      Run fresh ht M → ht.replace calloc key item = .ok (ht', .nomem) → Run fresh ht' M
  | remove {ht : Ihash V} {M : ℕ → Option V} {key : ℕ} :
      Run fresh ht M → Run fresh (ht.remove key).1 (update M key none)
  | locpRemove {ht : Ihash V} {M : ℕ → Option V} {i key : ℕ} {v : V} :
      Run fresh ht M → ht.Holds i key v →
      Run fresh (ht.locpRemove i) (update M key none)

/-- The table is in order and stands for the map. -/
structure Represents (fresh : Prop) (ht : Ihash V) (M : ℕ → Option V) : Prop where
  valid : Valid ht
  holds : ∀ k v, (∃ i, ht.Holds i k v) ↔ M k = some v
  located : fresh → ht.locp = true → Located ht
  apart : fresh → Apart ht

variable {fresh : Prop} {ht ht' : Ihash V} {M : ℕ → Option V} {key : ℕ} {v : V}

omit [DecidableEq V] in
theorem Represents.stores (h : Represents fresh ht M) (hstores : Stores ht key v ht')
    (hfresh : fresh → ∀ k ≠ key, M k ≠ some v) :
    Represents fresh ht' (update M key (some v)) := by
  have hother : fresh → ∀ j k, k ≠ key → ¬ ht.Holds j k v := fun hf j k hk hj =>
    hfresh hf k hk ((h.holds k v).1 ⟨j, hj⟩)
  have hholds : ∀ k w, (∃ i, ht'.Holds i k w) ↔ update M key (some v) k = some w := by
    intro k w
    rw [hstores.holds, h.holds]
    by_cases hk : k = key
    · subst hk
      simp [eq_comm]
    · simp [hk]
  refine ⟨hstores.valid, hholds, fun hf hlocp => ?_, fun hf i j k k' w hi hj => ?_⟩
  · rw [hstores.locp] at hlocp
    exact hstores.located hlocp (h.located hf hlocp) (h.apart hf) (hother hf)
  · -- an item under two keys was under two keys before, or is the new one
    rcases (hstores.holds k w).1 ⟨i, hi⟩ with ⟨rfl, rfl⟩ | ⟨hk, i', hi'⟩ <;>
      rcases (hstores.holds k' w).1 ⟨j, hj⟩ with ⟨rfl, hw⟩ | ⟨hk', j', hj'⟩
    · rfl
    · exact absurd hj' (hother hf j' k' hk')
    · exact absurd (hw ▸ hi') (hother hf i' k hk)
    · exact h.apart hf i' j' k k' w hi' hj'

omit [DecidableEq V] in
theorem Represents.locpRemove (h : Represents fresh ht M) (hi : ht.Holds i key v) :
    Represents fresh (ht.locpRemove i) (update M key none) := by
  obtain ⟨hvalid, hholds⟩ := h.valid.locpRemove hi
  refine ⟨hvalid, fun k w => ?_, fun hf hlocp j k w hj => ?_, fun hf j j' k k' w hj hj' => ?_⟩
  · simp only [hholds, exists_and_left, h.holds]
    by_cases hk : k = key
    · subst hk
      simp
    · simp [hk]
  · exact h.located hf hlocp j k w ((hholds j k w).1 hj).2
  · exact h.apart hf j j' k k' w ((hholds _ _ _).1 hj).2 ((hholds _ _ _).1 hj').2

omit [DecidableEq V] in
theorem Represents.remove (h : Represents fresh ht M) :
    Represents fresh (ht.remove key).1 (update M key none) := by
  have hnone : ht.find key = none → Represents fresh ht (update M key none) := by
    intro hfind
    have hM : M key = none := eq_none_iff_forall_ne_some.2 fun w hw => by
      rw [h.valid.find_iff.2 ((h.holds key w).2 hw)] at hfind
      simp at hfind
    rwa [← hM, update_eq_self]
  rw [Ihash.remove]
  split
  · next hsize => exact hnone (by rw [find, if_pos hsize])
  · next hsize =>
    cases hvalid : ht.indexValid (ht.findIndex key) key with
    | none => exact hnone (by rw [find, if_neg hsize, hvalid])
    | some v => exact h.locpRemove (holds_iff.2 (indexValid_eq_some.1 hvalid))

/-- One operation after the other, the table stands for the map. -/
theorem Run.represents (h : Run fresh ht M) : Represents fresh ht M := by
  induction h with
  | @init size array maxLoad locp location hsize _ =>
    obtain ⟨hvalid, hnone⟩ := valid_empty (V := V)
      ⟨0, array, fun _ => ⟨.empty, 0⟩, size, locp, maxLoad, location⟩ (fun _ => rfl) rfl hsize
    exact ⟨hvalid, fun k v => by simp [hnone], fun _ _ i k v hi => absurd hi (hnone i k v),
      fun _ i _ k _ v hi => absurd hi (hnone i k v)⟩
  | replace _ hok hsize hfresh ih =>
    exact ih.stores ((replace_spec ih.valid hok).2 _ rfl hsize).2 hfresh
  | nomem _ hok ih => rwa [(replace_spec ih.valid hok).1 rfl]
  | remove _ ih => exact ih.remove
  | locpRemove _ hi ih => exact ih.locpRemove hi

omit [DecidableEq V] in
theorem Represents.count (h : Represents fresh ht M) : ht.nrItems = {k | M k ≠ none}.ncard := by
  have hkeys : {k | M k ≠ none} = ↑(ht.liveSlots.image fun i => (ht.items i).key) := by
    ext k
    simp only [Set.mem_ofPred_eq, Finset.coe_image, Set.mem_image, Finset.mem_coe,
      mem_liveSlots h.valid, ne_none_iff_exists', ← h.holds, holds_iff]
    exact ⟨fun ⟨v, i, hv, hk⟩ => ⟨i, ⟨v, hv⟩, hk⟩, fun ⟨i, ⟨v, hv⟩, hk⟩ => ⟨v, i, hv, hk⟩⟩
  rw [hkeys, Set.ncard_coe_finset, Finset.card_image_of_injOn, h.valid.count]
  intro i hi j hj hkey
  obtain ⟨v, hv⟩ := (mem_liveSlots h.valid).1 hi
  obtain ⟨w, hw⟩ := (mem_liveSlots h.valid).1 hj
  exact h.valid.sound.unique hv hw hkey

/-- **The hash table is a finite map.** After every run a search finds what the map has, items are
counted, no key is in two slots, a call without memory leaves the table, and every call returns
unless the table would have to grow too large. If no item is stored under a key while it is stored
under another one, location pointers designate the slots of their items. -/
theorem ihash_refines_map (h : Run fresh ht M) :
    (∀ k, ht.find k = M k) ∧ ht.nrItems = {k | M k ≠ none}.ncard ∧
      (∀ i j k v w, ht.Holds i k v → ht.Holds j k w → i = j) ∧
      (∀ calloc key item ht', ht.replace calloc key item = .ok (ht', .nomem) → ht' = ht) ∧
      (∀ calloc key item, (∃ r, ht.replace calloc key item = .ok r) ∨
        ∃ size, bufferSize (ht.size + 1) ht.maxLoad = some size ∧ 2 ^ 24 ≤ size) ∧
      (fresh → ht.locp = true → Located ht) := by
  have hrep := h.represents
  refine ⟨fun k => ext fun v => ?_, hrep.count, fun i j k v w hi hj => ?_,
    fun calloc key item ht' hok => (replace_spec hrep.valid hok).1 rfl,
    replace_returns hrep.valid, hrep.located⟩
  · rw [hrep.valid.find_iff, hrep.holds]
  · exact (hrep.valid.unique hi hj).1

/-- An empty table of three slots for items with location pointers. -/
def three : Ihash V := ⟨0, 0, fun _ => ⟨.empty, 0⟩, 3, true, 80, fun _ => none⟩

theorem run_three : Run fresh (three : Ihash V) fun _ => none :=
  .init (.inr (by decide)) (by decide)

/-- **An item under two keys**: when it is removed from the second one, it is still stored under the
first one, and its location pointer designates the slot that was deleted. -/
theorem location_of_deleted : ∃ (ht : Ihash Unit) (M : ℕ → Option Unit), Run False ht M ∧
    ht.locp = true ∧ ht.Holds 1 1 () ∧ M 1 = some () ∧ ht.location () = some (0, 2) ∧
      ht.isDeleted 2 = true := by
  have hone : ∃ ht', three.replace true 1 () = .ok (ht', .done none) ∧ ht' = three.store 1 1 () :=
    ⟨_, rfl, rfl⟩
  have htwo : ∃ ht', (three.store 1 1 ()).replace true 2 () = .ok (ht', .done none) ∧
      ht' = (three.store 1 1 ()).store 2 2 () := ⟨_, rfl, rfl⟩
  obtain ⟨_, hone, rfl⟩ := hone
  obtain ⟨_, htwo, rfl⟩ := htwo
  refine ⟨(Ihash.remove _ 2).1, _, .remove (.replace (.replace run_three hone (by decide) nofun)
    htwo (by decide) nofun), rfl, rfl, rfl, rfl, rfl⟩

/-- The table after a store, with memory to grow. -/
def put (ht : Ihash V) (key : ℕ) (item : V) : Ihash V :=
  match ht.replace true key item with
  | .ok (ht', .done _) => ht'
  | _ => ht

theorem Run.put (h : Run fresh ht M) (hfresh : fresh → ∀ k ≠ key, M k ≠ some v)
    (hdone : ∃ ht' old, ht.replace true key v = .ok (ht', .done old) ∧ ht'.size < 2 ^ 24) :
    Run fresh (ht.put key v) (update M key (some v)) := by
  obtain ⟨ht', old, hok, hsize⟩ := hdone
  rw [Ihash.put, hok]
  exact h.replace hok hsize hfresh

/-- Five stores, of which the second and the third collide with the first and the last one makes the
table grow, and a removal after the second. -/
def grown : Ihash ℕ := (((((three.put 1 10).put 4 11).remove 1).1.put 7 12).put 2 13).put 5 14

theorem run_grown : Run True grown (update (update (update (update (update (update (fun _ => none)
    1 (some 10)) 4 (some 11)) 1 none) 7 (some 12)) 2 (some 13)) 5 (some 14)) := by
  refine .put (.put (.put (.remove (.put (.put run_three ?_ ?_) ?_ ?_)) ?_ ?_) ?_ ?_) ?_ ?_
  all_goals first
    | exact fun _ k _ => by grind [update_apply]
    | exact ⟨_, _, rfl, by decide⟩

/-- The items that were not removed are found, in the array that the table has grown to. -/
theorem ihash_refines_map_grown : grown.size = 7 ∧ grown.nrItems = 4 ∧ grown.find 1 = none ∧
    grown.find 4 = some 11 ∧ grown.find 7 = some 12 ∧ Located grown := by
  obtain ⟨hfind, -, -, -, -, hlocated⟩ := ihash_refines_map run_grown
  refine ⟨rfl, rfl, ?_, ?_, ?_, hlocated trivial rfl⟩ <;> rw [hfind] <;> rfl

/-- `HURD_IHASH_ITERATE`: the values its body is run for. -/
def iterate (ht : Ihash V) : List V :=
  (List.range ht.size).filterMap fun i =>
    match (ht.items i).value with
    | .empty | .deleted => none
    | .live v => some v

/-- **Iteration** sees the value of every key of the map, once for each key. -/
theorem iterate_enumerates (h : Run fresh ht M) :
    ∃ keys : List ℕ, keys.Nodup ∧ (∀ k, k ∈ keys ↔ M k ≠ none) ∧
      ht.iterate.map some = keys.map M := by
  obtain ⟨hvalid, hholds, -⟩ := h.represents
  have hlive (i : ℕ) : i ∈ (List.range ht.size).filter (ht.indexEmpty · = false) ↔
      ∃ v, (ht.items i).value = .live v := by
    simp [← mem_liveSlots hvalid, liveSlots]
  refine ⟨((List.range ht.size).filter (ht.indexEmpty · = false)).map fun i => (ht.items i).key,
    nodup_range.filter _ |>.map_on fun i hi j hj hkey => ?_, fun k => ?_, ?_⟩
  · obtain ⟨v, hv⟩ := (hlive i).1 hi
    obtain ⟨w, hw⟩ := (hlive j).1 hj
    exact hvalid.sound.unique hv hw hkey
  · simp only [List.mem_map, hlive, ne_none_iff_exists', ← hholds, holds_iff]
    grind
  · unfold iterate
    induction List.range ht.size with
    | nil => rfl
    | cons i l ih =>
      cases hi : (ht.items i).value with
      | live v =>
        have hM : M (ht.items i).key = some v := (hholds _ v).1 ⟨i, holds_iff.2 ⟨hi, rfl⟩⟩
        simp [hi, indexEmpty, hM, ih]
      | _ => simp [hi, indexEmpty, ih]

/-- The iteration over a table that has grown sees the four keys in it. -/
theorem iterate_enumerates_grown : grown.iterate = [12, 13, 11, 14] ∧
    ∃ keys : List ℕ, keys.Nodup ∧ keys.length = 4 ∧ ∀ k ∈ [2, 4, 5, 7], k ∈ keys := by
  obtain ⟨keys, hnodup, hkeys, hiterate⟩ := iterate_enumerates run_grown
  have hvalues : grown.iterate = [12, 13, 11, 14] := by decide
  refine ⟨hvalues, keys, hnodup, ?_, by simp [hkeys]⟩
  have hlength := congrArg length hiterate
  rw [hvalues] at hlength
  simpa using hlength.symm

end Runs

end Ihash

end Viengoos
