import TWlib.KHashRefinement

/-!
# The objects that `TW_KHash_32` constructs

The array `keys` is storage for KEY objects: `kh_put_A` and the rehash construct them in it by
placement, `removeAll` runs their destructors. Every DATA object has a cell of the heap. The keys
are followed with the numbers of the objects that lie in the slots; what they hold is in the table,
as before. Objects in local variables are not in the storage and left out.
-/

namespace TWlib.KHashLifetime

open TWlib.Lib.CellStore TWlib.Lib.PackedFlags TWlib.Lib.OpenAddressing TWlib.Lib.FiniteMap
  TWlib.KHashTable
  TWlib.KHashSearch TWlib.KHashUpdate TWlib.KHashPairs TWlib.KHashMap TWlib.KHashWalk
  TWlib.KHashRefinement

set_option autoImplicit false

variable {Key Data : Type}

/-! ## The KEY objects -/

/-- Objects are numbered as they are constructed. A slot has the last one that was constructed
there. -/
structure KeyObjects where
  made : Nat
  slots : Nat → Option Nat
  destroyed : List Nat

def KeyObjects.start : KeyObjects := ⟨0, fun _ => none, []⟩

/-- `new (&(h->keys[i])) KEY(key);` does not destroy what lies in the slot. -/
def KeyObjects.construct (objects : KeyObjects) (i : Nat) : KeyObjects :=
  { objects with made := objects.made + 1,
                 slots := Function.update objects.slots i (some objects.made) }

/-- `kh_key(KHASHMAP,k).~KEY();` -/
def KeyObjects.destruct (objects : KeyObjects) (i : Nat) : Option KeyObjects :=
  (objects.slots i).map fun object => { objects with destroyed := objects.destroyed ++ [object] }

/-- `ALLOC::realloc(h->keys, ..)` moves the objects and gives up the slots behind the new end. -/
def KeyObjects.realloc (objects : KeyObjects) (count : Nat) : KeyObjects :=
  { objects with slots := fun i => if i < count then objects.slots i else none }

def KeyObjects.EachOnce (objects : KeyObjects) : Prop :=
  ∀ object, object < objects.made → objects.destroyed.count object = 1

instance (objects : KeyObjects) : Decidable objects.EachOnce :=
  inferInstanceAs (Decidable (∀ object, object < objects.made → objects.destroyed.count object = 1))

section Rehash

variable (hash : Key → BitVec 32)

/-- `khKickOut` with the objects: a key that is kicked out is exchanged by assignment, the last one
is constructed. -/
def khKickOutKeys (newMask : Nat) : Nat → KhA Key → List (BitVec 32) → Key → Nat → KeyObjects →
    Option (KhA Key × List (BitVec 32) × KeyObjects)
  | 0, _, _, _, _, _ => none
  | fuel + 1, h, newFlags, key, val, objects => do
      let k := (hash key).toNat
      let i ← khPlaceFrom newFlags newMask (acInc k newMask) (newMask + 1) (k &&& newMask)
      let newFlags ← acSetIsemptyFalse newFlags i
      let held ← khHolds h i
      if held then do
        let tmpKey ← cellAt h.keys i
        let keys ← setCell h.keys i key
        let tmpVal ← cellAt h.vals i
        let vals ← setCell h.vals i val
        let flags ← acSetIsdelTrue h.flags i
        khKickOutKeys newMask fuel { h with keys, vals, flags } newFlags tmpKey tmpVal objects
      else do
        let keys ← setCell h.keys i key
        let vals ← setCell h.vals i val
        some ({ h with keys, vals }, newFlags, objects.construct i)

def khRehashKeys (newMask : Nat) : List Nat → KhA Key → List (BitVec 32) → KeyObjects →
    Option (KhA Key × List (BitVec 32) × KeyObjects)
  | [], h, newFlags, objects => some (h, newFlags, objects)
  | j :: js, h, newFlags, objects => do
      let either ← acIseither h.flags j
      if either then khRehashKeys newMask js h newFlags objects
      else do
        let key ← cellAt h.keys j
        let val ← cellAt h.vals j
        let flags ← acSetIsdelTrue h.flags j
        let (h, newFlags, objects) ←
          khKickOutKeys hash newMask (h.nBuckets + 1) { h with flags } newFlags key val objects
        khRehashKeys newMask js h newFlags objects

/-- `kh_resize_A` once `new_n_buckets` is rounded up. -/
def khResizeKeysTo (h : KhA Key) (objects : KeyObjects) (newNBuckets : Nat) :
    Option (KhA Key × KeyObjects) :=
  if h.size ≥ acHashUpper newNBuckets then some (h, objects)
  else do
    let newFlags := List.replicate (acFsize newNBuckets) 0xaaaaaaaa#32
    let (h, objects) :=
      if h.nBuckets < newNBuckets then (khRealloc h newNBuckets, objects.realloc newNBuckets)
        else (h, objects)
    let (h, newFlags, objects) ← khRehashKeys hash (newNBuckets - 1) (List.range h.nBuckets) h
      newFlags objects
    let (h, objects) :=
      if h.nBuckets > newNBuckets then (khRealloc h newNBuckets, objects.realloc newNBuckets)
        else (h, objects)
    some ({ h with flags := newFlags, nBuckets := newNBuckets, nOccupied := h.size,
                   upperBound := acHashUpper newNBuckets }, objects)

def khResizeKeys (h : KhA Key) (objects : KeyObjects) (newNBuckets : Nat) :
    Option (KhA Key × KeyObjects) :=
  let newNBuckets := kroundup32 newNBuckets
  khResizeKeysTo hash h objects (if newNBuckets < 4 then 4 else newNBuckets)

def khMakeRoomKeys (h : KhA Key) (objects : KeyObjects) : Option (KhA Key × KeyObjects) :=
  if h.nOccupied ≥ h.upperBound then
    if h.nBuckets > khint (h.size <<< 1) then
      khResizeKeys hash h objects (khint (h.nBuckets + (2 ^ 32 - 1)))
    else khResizeKeys hash h objects (khint (h.nBuckets + 1))
  else some (h, objects)

end Rehash

/-- `kh_put_A`: the key is constructed in an empty and in a deleted slot, where `*ret` is not 0. -/
def khPutKeys (equal : Key → Key → Bool) (hash : Key → BitVec 32) (h : KhA Key) (key : Key)
    (objects : KeyObjects) : Option (KhA Key × KeyObjects) := do
  let (h, objects) ← khMakeRoomKeys hash h objects
  let x ← khPutBucket equal hash h key
  let (h, ret) ← khOccupy h x key
  some (h, if ret = 0 then objects else objects.construct x)

/-- The destructors that the loop of `removeAll` runs. -/
def destructKeys (h : KhA Key) : List Nat → KeyObjects → Option KeyObjects
  | [], objects => some objects
  | k :: ks, objects => do
      let exist ← khExist h k
      if exist then do
        let objects ← objects.destruct k
        destructKeys h ks objects
      else destructKeys h ks objects

/-! ## The map with its objects -/

structure Tracked (Key Data : Type) where
  map : KHash32 Key Data
  keys : KeyObjects

def removes : Op Key Data → Option Key
  | .remove key | .removeFill key => some key
  | _ => none

section Operations

variable (hash : Key → BitVec 32) (equal : Key → Key → Bool)

/-- The KEY objects after an operation. `remove` marks the slot and leaves the object. -/
def keysAfter (tracked : Tracked Key Data) : Op Key Data → Option KeyObjects
  | .addReplace key _ | .addReplaceOld key _ | .addReplaceNew key | .addNoreplace key _
      | .addNoreplaceNew key
  | .findOrNew key => do
      let k ← khGet equal hash tracked.map.khashmap key
      if k ≠ tracked.map.khashmap.nBuckets then some tracked.keys
      else (khPutKeys equal hash tracked.map.khashmap key tracked.keys).map Prod.snd
  | .removeAll =>
      destructKeys tracked.map.khashmap (List.range tracked.map.khashmap.nBuckets) tracked.keys
  | .findFill _ | .find _ | .remove _ | .removeFill _ | .size => some tracked.keys

def performKeys (blank : Data) (tracked : Tracked Key Data) (op : Op Key Data) :
    Option (Tracked Key Data × Answer Data) := do
  let (map, answer) ← perform hash equal blank tracked.map op
  let keys ← keysAfter hash equal tracked op
  some (⟨map, keys⟩, answer)

def initKeys (items : Int) : Option (Tracked Key Data) :=
  if items > 0 then
    (khResizeKeys hash khInit .start items.toNat).map fun (khashmap, keys) =>
      ⟨⟨khashmap, Store.empty⟩, keys⟩
  else some ⟨⟨khInit, Store.empty⟩, .start⟩

end Operations

/-- `~TW_KHash_32()`: the arrays are freed without another destructor. -/
def destroy (tracked : Tracked Key Data) : Option (KeyObjects × Store Data) := do
  let (map, _) ← removeAll tracked.map
  let keys ← destructKeys tracked.map.khashmap (List.range tracked.map.khashmap.nBuckets)
    tracked.keys
  some (keys, map.heap)

def performAll (hash : Key → BitVec 32) (equal : Key → Key → Bool) (blank : Data)
    (tracked : Tracked Key Data) (ops : List (Op Key Data)) : Option (Tracked Key Data) :=
  ops.foldlM (fun tracked op => (performKeys hash equal blank tracked op).map Prod.fst) tracked

/-! ## The objects in the slots -/

/-- The objects in the slots `places` are those that are not destroyed yet. -/
structure Tracks (objects : KeyObjects) (places : List Nat) : Prop where
  apart : places.Nodup
  all : (objects.destroyed.map some ++ places.map objects.slots).Perm
    ((List.range objects.made).map some)

section Objects

variable {objects : KeyObjects} {places : List Nat} {i : Nat}

theorem tracks_start : Tracks .start [] := ⟨List.nodup_nil, List.Perm.refl _⟩

theorem tracks_perm (tracks : Tracks objects places) {others : List Nat}
    (perm : places.Perm others) :
    Tracks objects others where
  apart := perm.nodup_iff.mp tracks.apart
  all := ((perm.map objects.slots).append_left _).symm.trans tracks.all

/-- A slot that has no object gets one. -/
theorem tracks_construct (tracks : Tracks objects places) (free : i ∉ places) :
    Tracks (objects.construct i) (i :: places) where
  apart := List.nodup_cons.mpr ⟨free, tracks.apart⟩
  all := by
    have others : places.map (Function.update objects.slots i (some objects.made)) =
        places.map objects.slots := by
      apply List.map_congr_left
      intro place member
      exact Function.update_of_ne (ne_of_mem_of_not_mem member free) _ _
    show (objects.destroyed.map some ++
      (i :: places).map (Function.update objects.slots i (some objects.made))).Perm
        ((List.range (objects.made + 1)).map some)
    rw [List.map_cons, Function.update_self, others, List.range_succ, List.map_append,
      List.map_singleton]
    exact List.perm_middle.trans ((tracks.all.cons _).trans (List.perm_append_singleton _ _).symm)

theorem tracks_destruct {rest : List Nat} (tracks : Tracks objects (i :: rest)) :
    ∃ after, objects.destruct i = some after ∧ Tracks after rest := by
  have member : objects.slots i ∈ (List.range objects.made).map some := by
    apply tracks.all.mem_iff.mp
    exact List.mem_append_right _ (List.mem_map_of_mem List.mem_cons_self)
  rcases List.mem_map.mp member with ⟨object, _, held⟩
  refine ⟨{ objects with destroyed := objects.destroyed ++ [object] }, ?_, ?_⟩
  · rw [KeyObjects.destruct, ← held, Option.map_some]
  · exact {
      apart := (List.nodup_cons.mp tracks.apart).2
      all := by
        have all := tracks.all
        rw [List.map_cons, ← held] at all
        rw [List.map_append, List.map_singleton, List.append_assoc, List.singleton_append]
        exact all }

theorem tracks_realloc (tracks : Tracks objects []) (count : Nat) :
    Tracks (objects.realloc count) [] :=
  ⟨tracks.apart, tracks.all⟩

theorem tracks_each_once (tracks : Tracks objects []) : objects.EachOnce := by
  intro object made
  have all := tracks.all
  rw [List.map_nil, List.append_nil] at all
  have counts := all.count_eq (some object)
  rw [List.count_map_of_injective _ some (Option.some_injective Nat),
    List.count_map_of_injective _ some (Option.some_injective Nat)] at counts
  rw [counts]
  exact List.count_eq_one_of_mem List.nodup_range (List.mem_range.mpr made)

end Objects

/-! ## The live buckets -/

def places (h : KhA Key) : List Nat := (List.range h.nBuckets).filter fun k =>
    khExist h k = some true

section Places

variable {h : KhA Key} {mark : Nat → Mark} {objects : KeyObjects}

theorem kh_exist_mark (shows_ : Shows h.flags h.nBuckets mark) {k : Nat} (bound : k < h.nBuckets) :
    khExist h k = some (decide (mark k = .live)) := by
  rw [khExist, ac_iseither_eq shows_ bound, Option.map_some]
  cases mark k <;> rfl

theorem mem_places (shows_ : Shows h.flags h.nBuckets mark) {k : Nat} :
    k ∈ places h ↔ k < h.nBuckets ∧ mark k = .live := by
  rw [places, List.mem_filter, List.mem_range]
  constructor
  · rintro ⟨bound, exist⟩
    rw [kh_exist_mark shows_ bound] at exist
    exact ⟨bound, by simpa using exist⟩
  · rintro ⟨bound, live⟩
    rw [kh_exist_mark shows_ bound]
    exact ⟨bound, by simpa using live⟩

theorem places_nodup (h : KhA Key) : (places h).Nodup := List.nodup_range.filter _

theorem places_congr {after : KhA Key} (flags : after.flags = h.flags)
    (nBuckets : after.nBuckets = h.nBuckets) :
    places after = places h := by
  rw [places, places, nBuckets]
  unfold khExist
  rw [flags]

theorem represents_shows {hash : Key → BitVec 32} {equal : Key → Key → Bool}
    {pairs : List (Key × Nat)} (held : Represents hash equal h pairs) :
    ∃ mark, Shows h.flags h.nBuckets mark ∧ (pairs = [] → ∀ k, k < h.nBuckets →
      mark k ≠ .live) := by
  rcases held with ⟨fresh, none_⟩ | ⟨m, table, sound, all⟩
  · refine ⟨fun _ => .empty, fun k bound => ?_, fun _ k bound => by simp⟩
    rw [fresh] at bound
    exact absurd bound (Nat.not_lt_zero k)
  · rw [sound.buckets]
    refine ⟨_, sound.flags, fun none_ k bound live => ?_⟩
    rw [none_] at all
    cases slot : table k with
    | live entry =>
        have member : entry ∈ entries (2 ^ (m + 2)) table := mem_entries.mpr ⟨k, bound, slot⟩
        rw [all.eq_nil] at member
        cases member
    | empty =>
        rw [slot] at live
        cases live
    | deleted =>
        rw [slot] at live
        cases live

theorem places_none {hash : Key → BitVec 32} {equal : Key → Key → Bool}
    (held : Represents hash equal h []) : places h = [] := by
  rcases represents_shows held with ⟨mark, shows_, dead⟩
  apply List.eq_nil_iff_forall_not_mem.mpr
  intro k member
  rcases (mem_places shows_).mp member with ⟨bound, live⟩
  exact dead rfl k bound live

theorem destruct_keys_eq (shows_ : Shows h.flags h.nBuckets mark) (ks : List Nat)
    (inside : ∀ k ∈ ks, k < h.nBuckets)
    (tracks : Tracks objects (ks.filter fun k => khExist h k = some true)) :
    ∃ after, destructKeys h ks objects = some after ∧ Tracks after [] := by
  induction ks generalizing objects with
  | nil => exact ⟨objects, rfl, tracks⟩
  | cons k ks ih =>
      have insideRest : ∀ j ∈ ks, j < h.nBuckets :=
        fun j member => inside j (List.mem_cons_of_mem _ member)
      have exist := kh_exist_mark shows_ (inside k List.mem_cons_self)
      by_cases live : mark k = .live
      · rw [live] at exist
        rw [List.filter_cons_of_pos (by rw [exist]; rfl)] at tracks
        rcases tracks_destruct tracks with ⟨mid, destructed, rest⟩
        rcases ih insideRest rest with ⟨after, ran, done⟩
        refine ⟨after, ?_, done⟩
        simp only [destructKeys, exist, destructed, decide_true, Option.bind_eq_bind,
          Option.bind_some, if_true]
        exact ran
      · rw [decide_eq_false live] at exist
        rw [List.filter_cons_of_neg (by simp [exist])] at tracks
        rcases ih insideRest tracks with ⟨after, ran, done⟩
        refine ⟨after, ?_, done⟩
        simp only [destructKeys, exist, Option.bind_eq_bind, Option.bind_some,
          Bool.false_eq_true, if_false]
        exact ran

end Places

/-! ## The table under the objects -/

section Erasure

variable (hash : Key → BitVec 32)

theorem kh_kick_out_keys_table (newMask fuel : Nat) (h : KhA Key)
    (newFlags : List (BitVec 32)) (key : Key) (val : Nat) (objects : KeyObjects) :
    (khKickOutKeys hash newMask fuel h newFlags key val objects).map
      (fun done => (done.1, done.2.1)) =
      khKickOut hash newMask fuel h newFlags key val := by
  induction fuel generalizing h newFlags key val with
  | zero => rfl
  | succ fuel ih =>
      simp only [khKickOutKeys, khKickOut, Option.bind_eq_bind, Option.map_bind,
        apply_ite (Option.map _),
        Function.comp_def, ih, Option.map_some]

theorem kh_rehash_keys_table (newMask : Nat) (js : List Nat) (h : KhA Key)
    (newFlags : List (BitVec 32)) (objects : KeyObjects) :
    (khRehashKeys hash newMask js h newFlags objects).map (fun done => (done.1, done.2.1)) =
      khRehash hash newMask js h newFlags := by
  induction js generalizing h newFlags objects with
  | nil => rfl
  | cons j js ih =>
      simp only [khRehashKeys, khRehash, Option.bind_eq_bind, Option.map_bind,
        apply_ite (Option.map _),
        Function.comp_def, ih, ← kh_kick_out_keys_table hash newMask _ _ _ _ _ objects,
        Option.bind_map]

/-- What `kh_resize_A` does once `new_n_buckets` is rounded up. -/
private theorem kh_resize_to (h : KhA Key) (newNBuckets : Nat) {count : Nat}
    (target : (if kroundup32 newNBuckets < 4 then 4 else kroundup32 newNBuckets) = count) :
    khResize hash h newNBuckets =
      if h.size ≥ acHashUpper count then some h
      else
        let grown := if h.nBuckets < count then khRealloc h count else h
        (khRehash hash (count - 1) (List.range grown.nBuckets) grown
            (List.replicate (acFsize count) 0xaaaaaaaa#32)).bind fun (h, newFlags) =>
          let h := if h.nBuckets > count then khRealloc h count else h
          some { h with flags := newFlags, nBuckets := count, nOccupied := h.size,
                        upperBound := acHashUpper count } := by
  subst target
  rfl

theorem kh_resize_keys_to_table (h : KhA Key) (objects : KeyObjects) (newNBuckets : Nat)
    {count : Nat} (target : (if kroundup32 newNBuckets < 4 then 4 else kroundup32 newNBuckets) =
      count) :
    (khResizeKeysTo hash h objects count).map Prod.fst = khResize hash h newNBuckets := by
  rw [kh_resize_to hash h newNBuckets target, khResizeKeysTo]
  by_cases full : h.size ≥ acHashUpper count
  · rw [if_pos full, if_pos full]
    rfl
  · have resized : ∀ (grown : KhA Key) (grownObjects : KeyObjects),
        ((khRehashKeys hash (count - 1) (List.range grown.nBuckets) grown
            (List.replicate (acFsize count) 0xaaaaaaaa#32) grownObjects).bind fun (h,
              newFlags, objects) =>
          let (h, objects) :=
            if h.nBuckets > count then (khRealloc h count, objects.realloc count) else (h, objects)
          some ({ h with flags := newFlags, nBuckets := count, nOccupied := h.size,
                         upperBound := acHashUpper count }, objects)).map Prod.fst =
        (khRehash hash (count - 1) (List.range grown.nBuckets) grown
            (List.replicate (acFsize count) 0xaaaaaaaa#32)).bind fun (h, newFlags) =>
          let h := if h.nBuckets > count then khRealloc h count else h
          some { h with flags := newFlags, nBuckets := count, nOccupied := h.size,
                        upperBound := acHashUpper count } := by
      intro grown grownObjects
      rw [← kh_rehash_keys_table hash _ _ grown _ grownObjects, Option.map_bind, Option.bind_map]
      congr 1
      funext ⟨after, newFlags, afterObjects⟩
      by_cases shrink : after.nBuckets > count
      · simp [shrink]
      · simp [shrink]
    rw [if_neg full, if_neg full]
    by_cases expand : h.nBuckets < count
    · rw [if_pos expand, if_pos expand]
      exact resized _ _
    · rw [if_neg expand, if_neg expand]
      exact resized _ _

theorem kh_resize_keys_table (h : KhA Key) (objects : KeyObjects) (newNBuckets : Nat) :
    (khResizeKeys hash h objects newNBuckets).map Prod.fst = khResize hash h newNBuckets :=
  kh_resize_keys_to_table hash h objects newNBuckets rfl

theorem kh_make_room_keys_table (h : KhA Key) (objects : KeyObjects) :
    (khMakeRoomKeys hash h objects).map Prod.fst = khMakeRoom hash h := by
  unfold khMakeRoomKeys khMakeRoom
  rw [apply_ite (Option.map _), apply_ite (Option.map _), kh_resize_keys_table,
    kh_resize_keys_table]
  rfl

theorem kh_put_keys_table (equal : Key → Key → Bool) (h : KhA Key) (key : Key)
    (objects : KeyObjects) :
    (khPutKeys equal hash h key objects).map Prod.fst = (khPut equal hash h key).map Prod.fst := by
  simp only [khPutKeys, khPut, ← kh_make_room_keys_table hash h objects, Option.bind_eq_bind,
    Option.map_bind,
    Option.bind_map, Function.comp_def, Option.map_some]

end Erasure

/-! ## A new key -/

section Put

variable {hash : Key → BitVec 32} {equal : Key → Key → Bool} {h after : KhA Key}
  {objects : KeyObjects} {pairs : List (Key × Nat)}

theorem kh_rehash_keys_dead (newMask : Nat) (js : List Nat) (newFlags : List (BitVec 32))
    (dead : ∀ j ∈ js, acIseither h.flags j = some true) :
    khRehashKeys hash newMask js h newFlags objects = some (h, newFlags, objects) := by
  induction js with
  | nil => rfl
  | cons j js ih =>
      have first := dead j List.mem_cons_self
      simp only [khRehashKeys, first, Option.bind_eq_bind, Option.bind_some, if_true]
      exact ih fun i member => dead i (List.mem_cons_of_mem _ member)

theorem kh_resize_keys_tracks (held : Represents hash equal h []) (tracks : Tracks objects [])
    {newNBuckets : Nat} {afterObjects : KeyObjects}
    (resized : khResizeKeys hash h objects newNBuckets = some (after, afterObjects)) :
    Tracks afterObjects [] := by
  rcases represents_shows held with ⟨mark, shows_, none_⟩
  have dead : ∀ j ∈ List.range h.nBuckets, acIseither h.flags j = some true := by
    intro j member
    have bound := List.mem_range.mp member
    rw [ac_iseither_eq shows_ bound, decide_eq_true (none_ rfl j bound)]
  obtain ⟨count, target⟩ : ∃ count, khResizeKeysTo hash h objects count = some (after,
      afterObjects) :=
    ⟨_, resized⟩
  rw [khResizeKeysTo] at target
  by_cases full : h.size ≥ acHashUpper count
  · rw [if_pos full] at target
    cases target
    exact tracks
  · have passed : ∀ (grown : KhA Key) (grownObjects : KeyObjects), grown.flags = h.flags →
        grown.nBuckets = h.nBuckets →
        khRehashKeys hash (count - 1) (List.range grown.nBuckets) grown
          (List.replicate (acFsize count) 0xaaaaaaaa#32) grownObjects =
            some (grown, List.replicate (acFsize count) 0xaaaaaaaa#32, grownObjects) := by
      intro grown grownObjects flags nBuckets
      apply kh_rehash_keys_dead
      rw [flags, nBuckets]
      exact dead
    rw [if_neg full] at target
    by_cases expand : h.nBuckets < count
    · have notLess : ¬ (khRealloc h count).nBuckets > count := Nat.lt_asymm expand
      simp only [if_pos expand, passed (khRealloc h count) (objects.realloc count) rfl rfl,
        if_neg notLess,
        Option.bind_eq_bind, Option.bind_some, Option.some.injEq, Prod.mk.injEq] at target
      rw [← target.2]
      exact tracks_realloc tracks count
    · simp only [if_neg expand, passed h objects rfl rfl, Option.bind_eq_bind,
        Option.bind_some] at target
      by_cases shrink : h.nBuckets > count
      · simp only [if_pos shrink, Option.some.injEq, Prod.mk.injEq] at target
        rw [← target.2]
        exact tracks_realloc tracks count
      · simp only [if_neg shrink, Option.some.injEq, Prod.mk.injEq] at target
        rw [← target.2]
        exact tracks

theorem kh_make_room_keys_eq (held : Represents hash equal h pairs)
    (tracks : Tracks objects (places h)) (quiet : h.nOccupied < h.upperBound ∨ h.size = 0)
    (made : khMakeRoom hash h = some after) (remains : Represents hash equal after pairs) :
    ∃ afterObjects, khMakeRoomKeys hash h objects = some (after, afterObjects) ∧
      Tracks afterObjects (places after) := by
  by_cases full : h.nOccupied ≥ h.upperBound
  · have empty : h.size = 0 := by omega
    have none_ : pairs = [] := by
      rw [represents_size held] at empty
      exact List.eq_nil_of_length_eq_zero empty
    subst none_
    have table := kh_make_room_keys_table hash h objects
    rw [made] at table
    rcases Option.map_eq_some_iff.mp table with ⟨⟨same, afterObjects⟩, ran, rfl⟩
    refine ⟨afterObjects, ran, ?_⟩
    rw [places_none held] at tracks
    rw [places_none remains]
    rw [khMakeRoomKeys, if_pos full] at ran
    split_ifs at ran
    · exact kh_resize_keys_tracks held tracks ran
    · exact kh_resize_keys_tracks held tracks ran
  · rw [khMakeRoom, if_neg full] at made
    cases made
    exact ⟨objects, by rw [khMakeRoomKeys, if_neg full], tracks⟩

theorem kh_occupy_places {m : Nat} {table : Nat → Slot (Key × Nat)}
    (sound : Sound hash equal m h table) {x ret : Nat} {key : Key} (bound : x < 2 ^ (m + 2))
    (free : (table x).content = none) (occupied : khOccupy h x key = some (after, ret)) :
    ret ≠ 0 ∧ x ∉ places h ∧ (x :: places h).Perm (places after) := by
  have shows_ := sound.flags
  rw [← sound.buckets] at shows_ bound
  have dead : mark (table x) ≠ .live := by
    intro live
    cases slot : table x with
    | live entry =>
        rw [slot] at free
        cases free
    | empty =>
        rw [slot] at live
        cases live
    | deleted =>
        rw [slot] at live
        cases live
  have outside : x ∉ places h := fun member => dead ((mem_places shows_).mp member).2
  rcases ac_set_isboth_false_eq shows_ bound with ⟨flags, flagsSet, showsAfter⟩
  have done : ret ≠ 0 ∧ after.flags = flags ∧ after.nBuckets = h.nBuckets := by
    have isEmpty := ac_isempty_eq shows_ bound
    have isDel := ac_isdel_eq shows_ bound
    cases slot : mark (table x) with
    | live => exact absurd slot dead
    | empty =>
        rw [slot] at isEmpty
        simp only [khOccupy, isEmpty, flagsSet, decide_true, if_true, Option.bind_eq_bind,
          Option.bind_some,
          Option.bind_eq_some_iff] at occupied
        rcases occupied with ⟨keys, _, same⟩
        cases same
        exact ⟨by decide, rfl, rfl⟩
    | deleted =>
        rw [slot] at isEmpty isDel
        simp only [khOccupy, isEmpty, isDel, flagsSet, decide_true, reduceCtorEq, decide_false,
          Bool.false_eq_true, if_false, if_true, Option.bind_eq_bind, Option.bind_some,
          Option.bind_eq_some_iff] at occupied
        rcases occupied with ⟨keys, _, same⟩
        cases same
        exact ⟨by decide, rfl, rfl⟩
  rcases done with ⟨new, sameFlags, sameBuckets⟩
  rw [← sameFlags, ← sameBuckets] at showsAfter
  refine ⟨new, outside, ?_⟩
  apply (List.perm_ext_iff_of_nodup (List.nodup_cons.mpr ⟨outside, places_nodup h⟩)
    (places_nodup after)).mpr
  intro k
  rw [List.mem_cons, mem_places shows_, mem_places showsAfter, sameBuckets]
  by_cases here : k = x
  · subst here
    simp [bound]
  · simp [here]

/-- A new key that needs no rehash of other keys. -/
theorem kh_put_keys_eq (held : Represents hash equal h pairs) (lawful : Lawful hash equal)
    (tracks : Tracks objects (places h)) (quiet : h.nOccupied < h.upperBound ∨ h.size = 0)
    (bounded : CanGrow h) {key : Key} (absent : ∀ pair ∈ pairs, ¬ SameKey equal pair.1 key) :
    ∃ after afterObjects, khPutKeys equal hash h key objects = some (after, afterObjects) ∧
      Tracks afterObjects (places after) := by
  rcases kh_make_room_eq held lawful bounded with ⟨roomy, m, table, made, sound, all, room⟩
  have missing : ∀ entry ∈ entries (2 ^ (m + 2)) table, ¬ SameKey equal entry.1 key :=
    fun entry member => absent entry (all.mem_iff.mp member)
  rcases kh_put_bucket_eq sound missing with ⟨t, bound, decided, filled, free⟩
  rcases kh_occupy_eq sound lawful room missing bound filled free with ⟨after, ret, occupied, set⟩
  rcases kh_make_room_keys_eq held tracks quiet made (Or.inr ⟨m, table, sound, all⟩) with
    ⟨roomyObjects, madeKeys, roomyTracks⟩
  have inside := (probing hash m).path_lt key t
  rcases kh_occupy_places sound inside free occupied with ⟨new, outside, perm⟩
  refine ⟨after, roomyObjects.construct ((probing hash m).path key t), ?_, ?_⟩
  · simp only [khPutKeys, madeKeys, decided, occupied, if_neg new, Option.bind_eq_bind,
      Option.bind_some]
  · exact tracks_perm (tracks_construct roomyTracks outside) perm

end Put

/-! ## One operation -/

section Steps

variable {hash : Key → BitVec 32} {equal : Key → Key → Bool} {blank : Data}
  {map after : KHash32 Key Data} {content : Content Key Data} {items : List (Item Key Data)}
  {op : Op Key Data} {key : Key} {answer : Answer Data}

/-- The operation touches no live bucket of the table. -/
def SameLive (before after : KhA Key) : Prop :=
  after.flags = before.flags ∧ after.nBuckets = before.nBuckets

theorem new_value_live {k : Nat} {dat : Data} (made : newValue map k dat = some after) :
    SameLive map.khashmap after.khashmap := by
  simp only [newValue, Option.bind_eq_bind, Option.bind_eq_some_iff] at made
  rcases made with ⟨vals, _, same⟩
  cases same
  exact ⟨rfl, rfl⟩

theorem replace_value_live {k : Nat} {dat : Data} (replaced : replaceValue map k dat = some after) :
    SameLive map.khashmap after.khashmap := by
  simp only [replaceValue, Option.bind_eq_bind, Option.bind_eq_some_iff] at replaced
  rcases replaced with ⟨old, _, heap, _, made⟩
  have live := new_value_live made
  exact live

theorem put_value_live {x : Nat} {dat : Data}
    (put : putValue equal hash map key dat = some (after, x)) :
    ∃ khashmap ret, khPut equal hash map.khashmap key = some (khashmap, x, ret) ∧
      SameLive khashmap after.khashmap := by
  simp only [putValue, Option.bind_eq_bind, Option.bind_eq_some_iff] at put
  rcases put with ⟨⟨khashmap, k, ret⟩, placed, made, new, same⟩
  cases same
  exact ⟨khashmap, ret, placed, new_value_live new⟩

theorem perform_found_live (adding : adds op = some key) {x : Nat}
    (found : khGet equal hash map.khashmap key = some x) (inside : x ≠ map.khashmap.nBuckets)
    (performed : perform hash equal blank map op = some (after, answer)) :
    SameLive map.khashmap after.khashmap := by
  cases perform_adds adding performed with
  | leaves _ _ same =>
      subst same
      exact ⟨rfl, rfl⟩
  | replaces _ _ replaced => exact replace_value_live replaced
  | puts missed _ => exact absurd (Option.some.inj (found.symm.trans missed)) inside

/-- An adding operation that does not find its key goes through `kh_put_A`. -/
theorem perform_missed_live (adding : adds op = some key)
    (missed : khGet equal hash map.khashmap key = some map.khashmap.nBuckets)
    (performed : perform hash equal blank map op = some (after, answer)) :
    ∃ khashmap x ret, khPut equal hash map.khashmap key = some (khashmap, x, ret) ∧
      SameLive khashmap after.khashmap := by
  cases perform_adds adding performed with
  | leaves found inside _ => exact absurd (Option.some.inj (found.symm.trans missed)) inside
  | replaces found inside _ => exact absurd (Option.some.inj (found.symm.trans missed)) inside
  | puts _ put =>
      rcases put_value_live put with ⟨khashmap, ret, placed, same⟩
      exact ⟨khashmap, _, ret, placed, same⟩

/-- The operation neither removes a key that is there nor rehashes a table that holds one. -/
def Keeps (hash : Key → BitVec 32) (equal : Key → Key → Bool) (map : KHash32 Key Data)
    (op : Op Key Data) :
    Prop :=
  (∀ key, removes op = some key → khGet equal hash map.khashmap key = some map.khashmap.nBuckets) ∧
    ∀ key, adds op = some key → khGet equal hash map.khashmap key = some map.khashmap.nBuckets →
      map.khashmap.nOccupied < map.khashmap.upperBound ∨ map.khashmap.size = 0

theorem can_grow_quiet {h : KhA Key} (quiet : h.nOccupied < h.upperBound ∨ h.size = 0) :
    CanGrow h := by
  rcases quiet with room | empty
  · exact Or.inr (Or.inl room)
  · by_cases first : h.nBuckets = 0
    · exact Or.inl (by omega)
    · refine Or.inr (Or.inr ?_)
      rw [empty]
      show 0 < h.nBuckets
      omega

theorem keys_after_adding {tracked : Tracked Key Data} (adding : adds op = some key) :
    keysAfter hash equal tracked op = (khGet equal hash tracked.map.khashmap key).bind fun k =>
      if k ≠ tracked.map.khashmap.nBuckets then some tracked.keys
      else (khPutKeys equal hash tracked.map.khashmap key tracked.keys).map Prod.snd := by
  cases op with
  | addReplace | addReplaceOld | addReplaceNew | addNoreplace | addNoreplaceNew | findOrNew =>
      cases adding
      rfl
  | _ => cases adding

variable {tracked : Tracked Key Data}

/-- The map holds its items, the objects in its live buckets are those that are not destroyed. -/
structure Follows (hash : Key → BitVec 32) (equal : Key → Key → Bool) (tracked : Tracked Key Data)
    (content : Content Key Data) (items : List (Item Key Data)) : Prop where
  holds : Holds hash equal tracked.map content items
  tracks : Tracks tracked.keys (places tracked.map.khashmap)

theorem remove_all_destroys (lawful : Lawful hash equal)
    (follows : Follows hash equal tracked content items) (blank : Data) :
    ∃ after keys, removeAll tracked.map = some (after, .done true none) ∧
      destructKeys tracked.map.khashmap (List.range tracked.map.khashmap.nBuckets) tracked.keys =
      some keys ∧
      Follows hash equal ⟨after, keys⟩ (fun _ => none) [] ∧ keys.EachOnce ∧
      ∀ cell, after.heap.read cell = none := by
  rcases remove_all_goes follows.holds blank with ⟨after, answer, others, removed, correct, holds⟩
  have none_ : others = [] := List.map_eq_nil_iff.mp (lists_none lawful.equivalence holds.lists)
  subst none_
  rcases represents_shows follows.holds.table with ⟨mark, shows_, _⟩
  rcases destruct_keys_eq shows_ (List.range tracked.map.khashmap.nBuckets)
    (fun k => List.mem_range.mp)
    follows.tracks with ⟨keys, destructed, tracks⟩
  have done : answer = .done true none := correct
  rw [done] at removed
  refine ⟨after, keys, removed, destructed, ⟨holds, ?_⟩, tracks_each_once tracks, fun cell => ?_⟩
  · show Tracks keys (places after.khashmap)
    rw [places_none holds.table]
    exact tracks
  · cases read : after.heap.read cell with
    | none => rfl
    | some value =>
        have member := holds.only cell (by rw [read]; rfl)
        cases member

theorem tracks_same_live {keys : KeyObjects} {before last : KhA Key}
    (tracks : Tracks keys (places before)) (same : SameLive before last) :
    Tracks keys (places last) := by
  rw [places_congr same.1 same.2]
  exact tracks

/-- A key that is new gets a bucket and an object; one that is there gets neither. -/
theorem keys_added (lawful : Lawful hash equal) (follows : Follows hash equal tracked content items)
    (adding : adds op = some key)
    (quiet : content key = none →
      tracked.map.khashmap.nOccupied < tracked.map.khashmap.upperBound ∨
      tracked.map.khashmap.size = 0)
    (performed : perform hash equal blank tracked.map op = some (after, answer)) :
    ∃ keys, keysAfter hash equal tracked op = some keys ∧ Tracks keys (places after.khashmap) := by
  rcases search_cases lawful follows.holds key with
    ⟨missed, missing⟩ | ⟨x, item, rest, found, perm, equals, bucket, present⟩
  · have absent : ∀ pair ∈ items.map Item.pair, ¬ SameKey equal pair.1 key := by
      intro pair member
      rcases List.mem_map.mp member with ⟨item, here, same⟩
      exact same ▸ (none_iff follows.holds.lists).mp missing item.entry (List.mem_map_of_mem here)
    have calm := quiet missing
    rcases kh_put_keys_eq follows.holds.table lawful follows.tracks calm
        (can_grow_quiet calm) absent with
      ⟨khashmap, keys, put, tracks⟩
    rcases perform_missed_live adding missed performed with ⟨table, x, ret, placed, same⟩
    have sameTable := kh_put_keys_table hash equal tracked.map.khashmap key tracked.keys
    rw [put, placed, Option.map_some, Option.map_some] at sameTable
    cases sameTable
    refine ⟨keys, ?_, tracks_same_live tracks same⟩
    rw [keys_after_adding adding, missed, Option.bind_some, if_neg (by simp), put, Option.map_some]
  · refine ⟨tracked.keys, ?_,
      tracks_same_live follows.tracks (perform_found_live adding found bucket.inside performed)⟩
    rw [keys_after_adding adding, found, Option.bind_some, if_pos bucket.inside]

theorem perform_unread (keeps : Keeps hash equal tracked.map op) (other : adds op = none)
    (stays : op ≠ .removeAll) (performed : perform hash equal blank tracked.map op =
      some (after, answer))
    (correct : Correct hash equal blank content tracked.map after answer op) :
    after = tracked.map := by
  cases op with
  | addReplace | addReplaceOld | addReplaceNew | addNoreplace | addNoreplaceNew | findOrNew =>
      cases other
  | findFill key => exact correct.2
  | find key =>
      cases present : content key with
      | none =>
          simp only [Correct, present] at correct
          exact correct.2
      | some value =>
          simp only [Correct, present] at correct
          rcases correct with ⟨cell, _, _, same⟩
          exact same
  | remove key =>
      have missed := keeps.1 key rfl
      simp only [perform, remove, missed, ne_eq, not_true_eq_false, if_false, Option.bind_eq_bind,
        Option.bind_some, Option.some.injEq, Prod.mk.injEq] at performed
      exact performed.1.symm
  | removeFill key =>
      have missed := keeps.1 key rfl
      simp only [perform, remove_fill_by_value_eq, missed, ne_eq, not_true_eq_false, if_false,
        Option.bind_some,
        Option.some.injEq, Prod.mk.injEq] at performed
      exact performed.1.symm
  | removeAll => exact absurd rfl stays
  | size => exact correct.2

theorem perform_follows (lawful : Lawful hash equal)
    (follows : Follows hash equal tracked content items) (keeps : Keeps hash equal tracked.map op) :
    ∃ after answer others, performKeys hash equal blank tracked op = some (after, answer) ∧
      Follows hash equal after (meaning equal blank content op) others := by
  have quiet : ∀ key, adds op = some key → content key = none →
      tracked.map.khashmap.nOccupied < tracked.map.khashmap.upperBound ∨
      tracked.map.khashmap.size = 0 := by
    intro key adding missing
    rcases search_cases lawful follows.holds key with ⟨missed, _⟩ | ⟨x, item, rest, _, _,
      _, _, present⟩
    · exact keeps.2 key adding missed
    · rw [missing] at present
      cases present
  rcases perform_goes lawful follows.holds blank op fun key adding missing =>
    can_grow_quiet (quiet key adding missing) with ⟨after, answer, others, result, correct, holds⟩
  have performed : perform hash equal blank tracked.map op = some (after, answer) := result
  -- the objects follow the map if they follow its table
  have followed : ∀ keys, keysAfter hash equal tracked op = some keys →
      Tracks keys (places after.khashmap) →
      ∃ after answer others, performKeys hash equal blank tracked op = some (after, answer) ∧
        Follows hash equal after (meaning equal blank content op) others := by
    intro keys ran tracks
    refine ⟨⟨after, keys⟩, answer, others, ?_, holds, tracks⟩
    simp only [performKeys, performed, ran, Option.bind_eq_bind, Option.bind_some]
  have added : ∀ key, adds op = some key → ∃ after answer others,
      performKeys hash equal blank tracked op = some (after, answer) ∧
        Follows hash equal after (meaning equal blank content op) others := by
    intro key adding
    rcases keys_added lawful follows adding (quiet key adding) performed with ⟨keys, ran, tracks⟩
    exact followed keys ran tracks
  have unread : adds op = none → op ≠ .removeAll →
      keysAfter hash equal tracked op = some tracked.keys →
      ∃ after answer others, performKeys hash equal blank tracked op = some (after, answer) ∧
        Follows hash equal after (meaning equal blank content op) others := by
    intro other stays ran
    have same := perform_unread keeps other stays performed correct
    exact followed tracked.keys ran (tracks_same_live follows.tracks (same ▸ ⟨rfl, rfl⟩))
  cases op with
  | addReplace key dat => exact added key rfl
  | addReplaceOld key dat => exact added key rfl
  | addReplaceNew key => exact added key rfl
  | addNoreplace key dat => exact added key rfl
  | addNoreplaceNew key => exact added key rfl
  | findOrNew key => exact added key rfl
  | findFill key => exact unread rfl (by simp) rfl
  | find key => exact unread rfl (by simp) rfl
  | remove key => exact unread rfl (by simp) rfl
  | removeFill key => exact unread rfl (by simp) rfl
  | removeAll =>
      rcases remove_all_destroys lawful follows blank with ⟨emptied, keys, removed,
        destructed, done, _⟩
      refine ⟨⟨emptied, keys⟩, .done true none, [], ?_, done⟩
      simp only [performKeys, perform, keysAfter, removed, destructed, Option.bind_eq_bind,
        Option.bind_some]
  | size => exact unread rfl (by simp) rfl

end Steps

/-! ## Every run -/

section Runs

variable (hash : Key → BitVec 32) (equal : Key → Key → Bool) (blank : Data)

/-- Both `removeAll` and the destructor leave every KEY destroyed once and no DATA; a DATA that is
deleted twice has no result. -/
def CleansUp (tracked : Tracked Key Data) : Prop :=
  (∃ after answer, performKeys hash equal blank tracked .removeAll = some (after, answer) ∧
    after.keys.EachOnce ∧ ∀ cell, after.map.heap.read cell = none) ∧
  ∃ keys heap, destroy tracked = some (keys, heap) ∧ keys.EachOnce ∧ ∀ cell, heap.read cell = none

def DestroysOnce : Tracked Key Data → List (Op Key Data) → Prop
  | tracked, [] => CleansUp hash equal blank tracked
  | tracked, op :: ops => CleansUp hash equal blank tracked ∧ (Keeps hash equal tracked.map op →
      ∃ after answer, performKeys hash equal blank tracked op = some (after, answer) ∧
      DestroysOnce after ops)

variable {hash equal blank} {tracked : Tracked Key Data} {content : Content Key Data}
  {items : List (Item Key Data)}

theorem follows_cleans_up (lawful : Lawful hash equal)
    (follows : Follows hash equal tracked content items) :
    CleansUp hash equal blank tracked := by
  rcases remove_all_destroys lawful follows blank with ⟨after, keys, removed, destructed,
    _, once, gone⟩
  constructor
  · refine ⟨⟨after, keys⟩, .done true none, ?_, once, gone⟩
    simp only [performKeys, perform, keysAfter, removed, destructed, Option.bind_eq_bind,
      Option.bind_some]
  · refine ⟨keys, after.heap, ?_, once, gone⟩
    simp only [destroy, removed, destructed, Option.bind_eq_bind, Option.bind_some]

theorem run_destroys_once (lawful : Lawful hash equal)
    (follows : Follows hash equal tracked content items) (ops : List (Op Key Data)) :
    DestroysOnce hash equal blank tracked ops := by
  induction ops generalizing tracked content items with
  | nil => exact follows_cleans_up lawful follows
  | cons op ops ih =>
      refine ⟨follows_cleans_up lawful follows, fun keeps => ?_⟩
      rcases perform_follows lawful follows keeps with ⟨after, answer, others, performed, next⟩
      exact ⟨after, answer, performed, ih next⟩

theorem init_keys_map (hash : Key → BitVec 32) (items : Int) :
    (initKeys hash items : Option (Tracked Key Data)).map Tracked.map = init hash items := by
  unfold initKeys init
  split_ifs with positive
  · rw [← kh_resize_keys_table hash khInit .start, Option.map_map, Option.map_map]
    rfl
  · rfl

theorem init_follows (lawful : Lawful hash equal) {items : Int} (fits : items < 2 ^ 31) :
    ∃ first, initKeys hash items = some first ∧
      Follows hash equal first (fun _ => none : Content Key Data) [] := by
  rcases init_holds lawful fits with ⟨map, made, held⟩
  have tracks : ∀ keys, Tracks keys [] → Follows hash equal (⟨map, keys⟩ : Tracked Key Data)
      (fun _ => none) [] := by
    intro keys tracks
    refine ⟨held, ?_⟩
    rw [places_none held.table]
    exact tracks
  unfold init at made
  unfold initKeys
  split_ifs at made ⊢ with positive
  · have fresh : Represents hash equal khInit [] := Or.inl ⟨rfl, rfl⟩
    rcases Option.map_eq_some_iff.mp made with ⟨khashmap, resized, rfl⟩
    have table := kh_resize_keys_table hash khInit .start items.toNat
    rw [resized] at table
    rcases Option.map_eq_some_iff.mp table with ⟨⟨same, keys⟩, ran, rfl⟩
    refine ⟨⟨⟨same, Store.empty⟩, keys⟩, ?_, tracks keys ?_⟩
    · rw [ran, Option.map_some]
    · exact kh_resize_keys_tracks fresh tracks_start ran
  · cases made
    exact ⟨_, rfl, tracks .start tracks_start⟩

end Runs

end TWlib.KHashLifetime
