import TWlib.CircularObjects

/-!
# An emptied circular queue beside a new one

Two empty queues of the same size differ in what their cells still hold. The first
addition writes cell 0, and only two calls look into a cell that holds no element:
the iterator of a reversed queue, which goes the wrong way, and `get`, which looks
beside it. With three cells or more they reach every cell but the first.
-/

namespace TWlib.CircularEmptied

open TWlib.Lib.RingSlots TWlib.CircularBuffer TWlib.CircularSequential TWlib.CircularArray
  TWlib.CircularIterator
  TWlib.CircularObjects

set_option autoImplicit false

variable {Item : Type*} {husk : Item → Item} {blank : Item}

/-! ## What is stated -/

/-- Every sequence of calls gives what it gives on a newly constructed queue of the same size. -/
def LikeNew (husk : Item → Item) (blank : Item) (queue : Circular Item) : Prop :=
  ∀ uses, results husk blank queue uses =
    results husk blank (Circular.new queue.size queue.isObjects
      (List.replicate queue.size.toNat blank)) uses

/-! ## Queues that cannot be told apart -/

/-- Two queues that differ in cells no call looks into before it is written. -/
inductive Alike : Circular Item → Circular Item → Prop where
  | same (queue : Circular Item) : Alike queue queue
  /-- The first addition goes to the first cell. -/
  | first (size : Int) (positive : 1 ≤ size) (x y : Item) (cells : List Item) :
      Alike (Circular.new size true (x :: cells)) (Circular.new size true (y :: cells))
  | two (x y x' y' : Item) : Alike (Circular.new 2 true [x, x']) (Circular.new 2 true [y, y'])
  /-- One element in the first of two cells: the other one is written next. -/
  | one (reverse : Bool) (value x y : Item) :
      Alike ⟨true, reverse, ⟨1, 2⟩, 0, 0, 2, [value, x]⟩ ⟨true, reverse, ⟨1, 2⟩, 0, 0,
        2, [value, y]⟩

/-- Neither has a result, or both have the same and go on alike. -/
inductive Agree {Res : Type*} : Option (Circular Item × Res) →
    Option (Circular Item × Res) → Prop where
  | fault : Agree none none
  | both {left right : Circular Item} (result : Res) (alike : Alike left right) :
      Agree (some (left, result)) (some (right, result))

variable {left right : Circular Item} {kept : Item → Item} {value : Item} {size : Int}
    {cells data : List Item}

theorem agree_refl {Res : Type*} (outcome : Option (Circular Item × Res)) :
    Agree outcome outcome := by
  cases outcome with
  | none => exact .fault
  | some pair => exact .both pair.2 (.same pair.1)

theorem agree_cases {Res : Type*} {first second : Option (Circular Item × Res)}
    (agree : Agree first second) :
    (first = none ∧ second = none) ∨ ∃ left right result, first = some (left, result) ∧
      second = some (right, result) ∧ Alike left right := by
  cases agree with
  | fault => exact Or.inl ⟨rfl, rfl⟩
  | both result alike => exact Or.inr ⟨_, _, result, rfl, rfl, alike⟩

theorem agree_map {Res Other : Type*} {first second : Option (Circular Item × Res)}
    (agree : Agree first second) {further : Circular Item × Res → Circular Item × Other}
    (keeps : ∀ left right result, Alike left right →
      Alike (further (left, result)).1 (further (right, result)).1 ∧
      (further (left, result)).2 = (further (right, result)).2) :
    Agree (first.map further) (second.map further) := by
  cases agree with
  | fault => exact .fault
  | @both left right result alike =>
      rcases keeps left right result alike with ⟨after, same⟩
      have paired : further (right, result) = ((further (right, result)).1,
          (further (left, result)).2) :=
        Prod.ext rfl same.symm
      rw [Option.map_some, Option.map_some, paired]
      exact .both _ after

/-! ## The additions -/

theorem add_first (positive : 1 ≤ size) (kept : Item → Item) (value x : Item) (cells : List Item) :
    (Circular.new size true (x :: cells)).addBy kept value =
        some ⟨⟨true, false, ⟨size - 1, size⟩, 0, 0, size, value :: cells⟩, .signal .decrementCond,
          .returns true (some (kept value))⟩ ∧
      (Circular.new size true (x :: cells)).addIfRoomBy kept value =
        some ⟨⟨true, false, ⟨size - 1, size⟩, 0, 0, size, value :: cells⟩, .signal .decrementCond,
          .returns true (some (kept value))⟩ := by
  have room : (SemaTwoWay.mk size size).acquire = some (⟨size - 1, size⟩, .signal .decrementCond) :=
    if_pos positive
  have goesTo : (Circular.mk true false ⟨size - 1, size⟩ (-1) 0 size (x :: cells)).nextNextIn =
      0 := by
    simp [Circular.nextNextIn]
  have put : (Circular.mk true false ⟨size - 1, size⟩ (-1) 0 size (x :: cells)).putNext value =
      some ⟨true, false, ⟨size - 1, size⟩, 0, 0, size, value :: cells⟩ := by
    simp [Circular.putNext, goesTo, setCell]
  constructor
  · simp [Circular.addBy, Circular.new, room, put]
  · simp [Circular.addIfRoomBy, Circular.new, room, put]

theorem add_second (reverse : Bool) (kept : Item → Item) (value item x : Item) :
    (Circular.mk true reverse ⟨1, 2⟩ 0 0 2 [item, x]).addBy kept value =
        some ⟨⟨true, reverse, ⟨0, 2⟩, 1, 0, 2, [item, value]⟩, .signal .decrementCond,
          .returns true (some (kept value))⟩ ∧
      (Circular.mk true reverse ⟨1, 2⟩ 0 0 2 [item, x]).addIfRoomBy kept value =
        some ⟨⟨true, reverse, ⟨0, 2⟩, 1, 0, 2, [item, value]⟩, .signal .decrementCond,
          .returns true (some (kept value))⟩ := by
  cases reverse with
  | false => exact ⟨rfl, rfl⟩
  | true => exact ⟨rfl, rfl⟩

theorem add_agree (alike : Alike left right) (kept : Item → Item) (value : Item) :
    Agree (ofRegion (left.addBy kept value)) (ofRegion (right.addBy kept value)) ∧
      Agree (ofRegion (left.addIfRoomBy kept value)) (ofRegion (right.addIfRoomBy kept value)) := by
  cases alike with
  | same => exact ⟨agree_refl _, agree_refl _⟩
  | first size positive x y cells =>
      rw [(add_first positive kept value x cells).1, (add_first positive kept value y cells).1,
        (add_first positive kept value x cells).2, (add_first positive kept value y cells).2]
      exact ⟨agree_refl _, agree_refl _⟩
  | two x y x' y' =>
      have some_ : (1 : Int) ≤ 2 := by decide
      rw [(add_first some_ kept value x [x']).1, (add_first some_ kept value y [y']).1,
        (add_first some_ kept value x [x']).2, (add_first some_ kept value y [y']).2]
      exact ⟨.both _ (.one false value x' y'), .both _ (.one false value x' y')⟩
  | one reverse item x y =>
      rw [(add_second reverse kept value item x).1, (add_second reverse kept value item y).1,
        (add_second reverse kept value item x).2, (add_second reverse kept value item y).2]
      exact ⟨agree_refl _, agree_refl _⟩

/-! ## The removals -/

theorem remain_new (size : Int) (data : List Item) : (Circular.new size true data).remain = 0 :=
  Int.sub_self size

theorem remove_new (kept : Item → Item) (size : Int) (data : List Item) :
    (Circular.new size true data).removeBy kept = some ⟨Circular.new size true data, .nobody,
      .returns false none⟩ ∧
      (Circular.new size true data).removeOrBlockBy kept =
        some ⟨Circular.new size true data, .nobody, .waits .decrementCond⟩ := by
  have empty : ¬ (Circular.new size true data).remain > 0 :=
    Int.not_lt.mpr (Int.le_of_eq (remain_new size data))
  constructor
  · rw [Circular.removeBy, if_neg empty]
  · have nothing : (Circular.new size true data).sema.cnt ≥
      (Circular.new size true data).sema.size := Int.le_refl size
    rw [Circular.removeOrBlockBy, if_neg empty, if_pos nothing]

/-- The removal of the only element makes the queue start again. -/
theorem remove_only (reverse : Bool) (kept : Item → Item) (item x : Item) :
    (Circular.mk true reverse ⟨1, 2⟩ 0 0 2 [item, x]).removeBy kept =
        some ⟨Circular.new 2 true [kept item, x], .signal .gtZeroCond, .returns true (some item)⟩ ∧
      (Circular.mk true reverse ⟨1, 2⟩ 0 0 2 [item, x]).removeOrBlockBy kept =
        some ⟨Circular.new 2 true [kept item, x], .signal .gtZeroCond,
          .returns true (some item)⟩ := by
  cases reverse with
  | false => exact ⟨rfl, rfl⟩
  | true => exact ⟨rfl, rfl⟩

theorem remove_agree (alike : Alike left right) (kept : Item → Item) :
    Agree (ofRegion (left.removeBy kept)) (ofRegion (right.removeBy kept)) ∧
      Agree (ofRegion (left.removeOrBlockBy kept)) (ofRegion (right.removeOrBlockBy kept)) := by
  cases alike with
  | same => exact ⟨agree_refl _, agree_refl _⟩
  | first size positive x y cells =>
      rw [(remove_new kept size (x :: cells)).1, (remove_new kept size (y :: cells)).1,
        (remove_new kept size (x :: cells)).2, (remove_new kept size (y :: cells)).2]
      exact ⟨.both _ (.first size positive x y cells), .both _ (.first size positive x y cells)⟩
  | two x y x' y' =>
      rw [(remove_new kept 2 [x, x']).1, (remove_new kept 2 [y, y']).1,
        (remove_new kept 2 [x, x']).2, (remove_new kept 2 [y, y']).2]
      exact ⟨.both _ (.two x y x' y'), .both _ (.two x y x' y')⟩
  | one reverse item x y =>
      rw [(remove_only reverse kept item x).1, (remove_only reverse kept item y).1,
        (remove_only reverse kept item x).2, (remove_only reverse kept item y).2]
      exact ⟨.both _ (.two _ _ x y), .both _ (.two _ _ x y)⟩

/-! ## The other calls -/

theorem reverse_alike (alike : Alike left right) : Alike left.reverseOrder right.reverseOrder := by
  cases alike with
  | same queue => exact .same _
  | first size positive x y cells =>
      have empty (data : List Item) : (Circular.new size true data).reverseOrder =
          Circular.new size true data :=
        if_pos (Int.lt_of_le_of_lt (Int.le_of_eq (remain_new size data)) Int.one_pos)
      rw [empty, empty]
      exact .first size positive x y cells
  | two x y x' y' => exact .two x y x' y'
  | one reverse item x y => exact .one (!reverse) item x y

theorem clear_eq (blank : Item) (alike : Alike left right) :
    left.clear blank = right.clear blank := by
  cases alike with
  | same => rfl
  | first => rfl
  | two => rfl
  | one => rfl

theorem remain_alike (alike : Alike left right) : left.remain = right.remain := by
  cases alike with
  | same => rfl
  | first => rfl
  | two => rfl
  | one => rfl

theorem perform_agree (alike : Alike left right) (husk : Item → Item) (blank : Item)
    (op : Op Item) :
    Agree (perform husk blank left op) (perform husk blank right op) := by
  cases op with
  | add value => exact (add_agree alike id value).1
  | addIfRoom value => exact (add_agree alike id value).2
  | addMv value => exact (add_agree alike husk value).1
  | addMvIfRoom value => exact (add_agree alike husk value).2
  | remove => exact (remove_agree alike id).1
  | removeMv => exact (remove_agree alike husk).1
  | removeOrBlock => exact (remove_agree alike id).2
  | removeMvOrBlock => exact (remove_agree alike husk).2
  | reverse => exact .both _ (reverse_alike alike)
  | clear =>
      simp only [perform, clear_eq blank alike]
      exact agree_refl _
  | remaining =>
      simp only [perform, remain_alike alike]
      exact .both _ alike

theorem get_new (size : Int) (data : List Item) (n : Int) (value : Item) :
    (Circular.new size true data).get n = some (false, none) ∧
      (Circular.new size true data).set n value = some (Circular.new size true data, false) := by
  have invalid : ¬ (n ≥ 0 ∧ n < (Circular.new size true data).remain) := by
    rw [remain_new]
    omega
  exact ⟨if_neg invalid, if_neg invalid⟩

/-- The only element of two cells is found in the first one, or past the end when the queue is
reversed. -/
theorem get_only (reverse : Bool) (item x : Item) (n : Int) (value : Item) :
    (Circular.mk true reverse ⟨1, 2⟩ 0 0 2 [item, x]).get n =
        (if n = 0 then if reverse then none else some (true, some item) else some (false, none)) ∧
      (Circular.mk true reverse ⟨1, 2⟩ 0 0 2 [item, x]).set n value =
        (if n = 0 then
          if reverse then none else some (⟨true, reverse, ⟨1, 2⟩, 0, 0, 2, [value, x]⟩, true)
        else some (⟨true, reverse, ⟨1, 2⟩, 0, 0, 2, [item, x]⟩, false)) := by
  have count : (Circular.mk true reverse ⟨1, 2⟩ 0 0 2 [item, x]).remain = 1 := rfl
  by_cases zero : n = 0
  · subst zero
    rw [if_pos rfl, if_pos rfl]
    cases reverse with
    | false => exact ⟨rfl, rfl⟩
    | true => exact ⟨rfl, rfl⟩
  · have invalid : ¬ (n ≥ 0 ∧ n < (Circular.mk true reverse ⟨1, 2⟩ 0 0 2 [item, x]).remain) := by
      rw [count]
      omega
    rw [if_neg zero, if_neg zero]
    exact ⟨if_neg invalid, if_neg invalid⟩

theorem get_alike (alike : Alike left right) (n : Int) : left.get n = right.get n := by
  cases alike with
  | same => rfl
  | first size _ x y cells =>
      rw [(get_new size (x :: cells) n x).1, (get_new size (y :: cells) n x).1]
  | two x y x' y' => rw [(get_new 2 [x, x'] n x).1, (get_new 2 [y, y'] n x).1]
  | one reverse item x y => rw [(get_only reverse item x n x).1, (get_only reverse item y n x).1]

theorem set_agree (alike : Alike left right) (n : Int) (value : Item) :
    Agree (left.set n value) (right.set n value) := by
  cases alike with
  | same => exact agree_refl _
  | first size positive x y cells =>
      rw [(get_new size (x :: cells) n value).2, (get_new size (y :: cells) n value).2]
      exact .both _ (.first size positive x y cells)
  | two x y x' y' =>
      rw [(get_new 2 [x, x'] n value).2, (get_new 2 [y, y'] n value).2]
      exact .both _ (.two x y x' y')
  | one reverse item x y =>
      rw [(get_only reverse item x n value).2, (get_only reverse item y n value).2]
      split_ifs
      · exact .fault
      · exact .both _ (.one reverse value x y)
      · exact .both _ (.one reverse item x y)

theorem walk_new (size : Int) (data : List Item) :
    (getIter (Circular.new size true data)).walk (Circular.new size true data)
      (Circular.new size true data).remain.toNat = some [] := by
  have ended : (getIter (Circular.new size true data)).atEnd
      (Circular.new size true data) = true := by
    simp [Iter.atEnd, remain_new, getIter]
  rw [remain_new, Int.toNat_zero, Iter.walk, if_pos ended]

theorem walk_alike (alike : Alike left right) :
    (getIter left).walk left left.remain.toNat = (getIter right).walk right right.remain.toNat := by
  cases alike with
  | same => rfl
  | first => rw [walk_new, walk_new]
  | two => rw [walk_new, walk_new]
  | one => rfl

theorem expired_alike (alike : Alike left right) (answer : Answer Item) :
    Alike (expired left answer).1 (expired right answer).1 ∧
      (expired left answer).2 = (expired right answer).2 := by
  rw [expired_queue, expired_queue]
  refine ⟨alike, ?_⟩
  unfold expired
  split <;> rfl

theorem use_agree (alike : Alike left right) (husk : Item → Item) (blank : Item) (one : Use Item) :
    Agree (use husk blank left one) (use husk blank right one) := by
  cases one with
  | call op => exact agree_map (perform_agree alike husk blank op) fun _ _ _ after => ⟨after, rfl⟩
  | timed op =>
      exact agree_map (perform_agree alike husk blank op) fun _ _ answer after =>
        expired_alike after answer
  | get n =>
      simp only [use, get_alike alike n]
      cases right.get n with
      | none => exact .fault
      | some pair => exact .both _ alike
  | set n value => exact agree_map (set_agree alike n value) fun _ _ _ after => ⟨after, rfl⟩
  | setMv n value =>
      have inner : Agree (left.setMv husk n value) (right.setMv husk n value) :=
        agree_map (set_agree alike n value) fun _ _ _ after => ⟨after, rfl⟩
      exact agree_map inner fun _ _ _ after => ⟨after, rfl⟩
  | iterate =>
      simp only [use, walk_alike alike]
      cases (getIter right).walk right right.remain.toNat with
      | none => exact .fault
      | some visited => exact .both _ alike

theorem results_alike (alike : Alike left right) (uses : List (Use Item)) :
    results husk blank left uses = results husk blank right uses := by
  induction uses generalizing left right with
  | nil => rfl
  | cons one rest ih =>
      rcases agree_cases (use_agree alike husk blank one) with
        ⟨missing, none_⟩ | ⟨after, other, result, used, usedOther, stillAlike⟩
      · rw [results, results, missing, none_]
      · rw [results, results, used, usedOther]
        simp only [Option.elim, ih stillAlike]

/-! ## Single calls -/

section Calls

variable {isObjects reverse : Bool} {cnt semaSize nextIn nextOut next n : Int}
    {rest : List (Use Item)}

theorem results_add (room : 1 ≤ cnt)
    (goesTo : (Circular.mk isObjects reverse ⟨cnt, semaSize⟩ nextIn nextOut size data).nextNextIn =
      next)
    (set : setCell data next value = some cells) :
    results husk blank ⟨isObjects, reverse, ⟨cnt, semaSize⟩, nextIn, nextOut, size,
      data⟩ (.call (.add value) :: rest) =
      (results husk blank ⟨isObjects, reverse, ⟨cnt - 1, semaSize⟩, next, nextOut, size,
        cells⟩ rest).map
        fun later => .call (.call (.returns true (some value))) :: later := by
  have same : (Circular.mk isObjects reverse ⟨cnt - 1,
    semaSize⟩ nextIn nextOut size data).nextNextIn = next := goesTo
  have used : use husk blank ⟨isObjects, reverse, ⟨cnt, semaSize⟩, nextIn, nextOut, size,
      data⟩ (.call (.add value)) =
      some (⟨isObjects, reverse, ⟨cnt - 1, semaSize⟩, next, nextOut, size, cells⟩,
        .call (.call (.returns true (some value)))) := by
    simp [use, perform, Circular.add, Circular.addBy, SemaTwoWay.acquire, room, Circular.putNext,
      same, set, ofRegion]
  rw [results, used]
  rfl

theorem results_reverse (some_ : 1 ≤ size - cnt) :
    results husk blank ⟨isObjects, reverse, ⟨cnt, semaSize⟩, nextIn, nextOut, size,
      data⟩ (.call .reverse :: rest) =
      (results husk blank ⟨isObjects, !reverse, ⟨cnt, semaSize⟩, nextOut, nextIn, size,
        data⟩ rest).map
        fun later => .call .done :: later := by
  have filled : ¬ (Circular.mk isObjects reverse ⟨cnt, semaSize⟩ nextIn nextOut size data).remain <
      1 :=
    Int.not_lt.mpr some_
  have used : use husk blank ⟨isObjects, reverse, ⟨cnt, semaSize⟩, nextIn, nextOut, size,
      data⟩ (.call .reverse) =
      some (⟨isObjects, !reverse, ⟨cnt, semaSize⟩, nextOut, nextIn, size, data⟩, .call .done) := by
    simp only [use, perform, Circular.reverseOrder, if_neg filled]
    rfl
  rw [results, used]
  rfl

theorem results_get (low : 0 ≤ n) (some_ : n < size - cnt) :
    results husk blank ⟨isObjects, reverse, ⟨cnt, semaSize⟩, nextIn, nextOut, size, data⟩ [.get n] =
      (cellAt data ((Circular.mk isObjects reverse ⟨cnt,
        semaSize⟩ nextIn nextOut size data).position n.toNat)).map
        fun value => [.got true (some value)] := by
  have valid : n ≥ 0 ∧ n < (Circular.mk isObjects reverse ⟨cnt,
      semaSize⟩ nextIn nextOut size data).remain :=
    ⟨low, some_⟩
  rw [results, use, Circular.get, if_pos valid]
  cases cellAt data _ with
  | none => rfl
  | some found => rfl

theorem cell_is_some {index : Int} (low : 0 ≤ index) (high : index < data.length) :
    (cellAt data index).isSome = true := by
  rcases cell_exists low high with ⟨found, here⟩
  rw [here]
  rfl

theorem results_adds (value : Item) {n : Nat} {used : Int} (low : 0 ≤ used) (room : used + n ≤ size)
    (whole : (data.length : Int) = size) :
    ∃ filled, filled.length = data.length ∧
      (∀ k : Int, used + n ≤ k → cellAt filled k = cellAt data k) ∧
      ∀ rest, results husk blank ⟨isObjects, false, ⟨size - used, size⟩, used - 1, 0, size, data⟩
          (List.replicate n (.call (.add value)) ++ rest) =
        (results husk blank ⟨isObjects, false, ⟨size - (used + n), size⟩, used + n - 1, 0, size,
          filled⟩ rest).map
          fun later => List.replicate n (.call (.call (.returns true (some value)))) ++ later := by
  induction n generalizing used data with
  | zero =>
      refine ⟨data, rfl, fun _ _ => rfl, fun rest => ?_⟩
      simp
  | succ n ih =>
      have inside : (Circular.mk isObjects false ⟨size - used,
          size⟩ (used - 1) 0 size data).nextNextIn = used := by
        have before : ¬ used - 1 + 1 ≥ size := by omega
        simp only [Circular.nextNextIn, Bool.false_eq_true, if_false, if_neg before]
        omega
      rcases @set_cell_exists _ data used low (by omega) value with ⟨cells, set⟩
      have length := set_cell_length set
      rcases @ih cells (used + 1) (by omega) (by omega) (by omega) with ⟨filled, sameLength,
        kept, goesOn⟩
      refine ⟨filled, sameLength.trans length, fun k beyond => ?_, fun rest => ?_⟩
      · rw [kept k (by omega), set_cell_read set, if_neg (by omega)]
      · have count : size - used - 1 = size - (used + 1) := by omega
        have place : used = used + 1 - 1 := by omega
        have sum : used + 1 + n = used + (n + 1 : Nat) := by omega
        rw [List.replicate_succ, List.cons_append, results_add (by omega) inside set, count]
        nth_rewrite 2 [place]
        rw [goesOn, sum, Option.map_map]
        rfl

/-- The iterator goes up from `nextOut` in a reversed queue as well. -/
theorem results_iterate {count : Nat} (some_ : 1 ≤ count) (fits : count ≤ size)
    (out : 0 ≤ nextOut ∧ nextOut < size) (inRange : 0 ≤ nextIn ∧ nextIn < size)
    (behind : (nextIn - 1) % size = slot size nextOut (-1) count)
    (whole : (data.length : Int) = size) :
    results husk blank ⟨isObjects, true, ⟨size - count, size⟩, nextIn, nextOut, size,
      data⟩ [.iterate] =
      some [.visited ((List.range count).map fun j => cellAt data (slot size nextOut 1 j))] := by
  rcases @laid_any _ data nextOut (-1) count (by omega) with ⟨items, laid, length⟩
  have held : Represents ⟨isObjects, true, ⟨size - count, size⟩, nextIn, nextOut, size,
      data⟩ items := by
    have positive : 1 ≤ size := by omega
    have started : ¬ nextIn = -1 := by omega
    refine ⟨positive, whole, rfl, by rw [length], laid, out, ⟨?_, inRange.2⟩,
      fun fresh => absurd fresh started, ?_⟩
    · change -1 ≤ nextIn
      omega
    · rw [length]
      exact behind
  have walked := walk_all held
  rw [length] at walked
  have remains : (Circular.mk isObjects true ⟨size - count,
      size⟩ nextIn nextOut size data).remain.toNat = count := by
    simp [Circular.remain, SemaTwoWay.countNoBlock]
  simp only [results, use, remains, walked, Option.map_some, Option.elim, Result.stuck,
    Bool.false_eq_true, if_false,
    List.map_map]
  rfl

/-! ## A queue that is still reversed -/

/-- With one cell, the element of a reversed source is looked for behind it. -/
theorem reversed_single_differs (whole : data.length = 1) (value : Item) :
    (results husk blank ⟨isObjects, true, ⟨1, 1⟩, -1, 0, 1, data⟩ [.call (.add value),
      .get 0]).isSome = false ∧
    (results husk blank ⟨isObjects, false, ⟨1, 1⟩, -1, 0, 1, data⟩ [.call (.add value),
      .get 0]).isSome = true := by
  have set_ : ∃ cells, setCell data 0 value = some cells :=
    set_cell_exists (Int.le_refl 0) (by omega) value
  rcases set_ with ⟨cells, set⟩
  have length := set_cell_length set
  constructor
  · have goesTo : (Circular.mk isObjects true ⟨1, 1⟩ (-1) 0 1 data).nextNextIn = 0 := rfl
    rw [results_add (Int.le_refl 1) goesTo set, Option.isSome_map,
      results_get (Int.le_refl 0) (by omega),
      Option.isSome_map]
    have place : (Circular.mk isObjects true ⟨1 - 1, 1⟩ 0 0 1 cells).position 0 = 1 := rfl
    rw [Int.toNat_zero, place, cell_beyond (by omega)]
    rfl
  · have goesTo : (Circular.mk isObjects false ⟨1, 1⟩ (-1) 0 1 data).nextNextIn = 0 := rfl
    rw [results_add (Int.le_refl 1) goesTo set, Option.isSome_map,
      results_get (Int.le_refl 0) (by omega),
      Option.isSome_map]
    have place : (Circular.mk isObjects false ⟨1 - 1, 1⟩ 0 0 1 cells).position 0 = 0 := rfl
    rw [Int.toNat_zero, place]
    exact cell_is_some (Int.le_refl 0) (by omega)

/-- With more cells, a reversed source has its first elements apart at both ends of the array. -/
theorem reversed_differs (more : 2 ≤ size) (whole : (data.length : Int) = size) (value : Item) :
    (results husk blank ⟨isObjects, true, ⟨size, size⟩, -1, 0, size, data⟩
      [.call (.add value), .call .reverse, .call (.add value), .get 1]).isSome = false ∧
    (results husk blank ⟨isObjects, false, ⟨size, size⟩, -1, 0, size, data⟩
      [.call (.add value), .call .reverse, .call (.add value), .get 1]).isSome = true := by
  constructor
  · rcases @set_cell_exists _ data (size - 1) (by omega) (by omega) value with ⟨cells, set⟩
    have length := set_cell_length set
    rcases @set_cell_exists _ cells 1 (by omega) (by omega) value with ⟨both, setAgain⟩
    have lengthAgain := set_cell_length setAgain
    have goesTo : (Circular.mk isObjects true ⟨size, size⟩ (-1) 0 size data).nextNextIn =
      size - 1 := rfl
    have then_ : (Circular.mk isObjects (!true) ⟨size - 1,
        size⟩ 0 (size - 1) size cells).nextNextIn = 1 := by
      have inside : ¬ (0 : Int) + 1 ≥ size := by omega
      simp only [Circular.nextNextIn, Bool.not_true, Bool.false_eq_true, if_false, if_neg inside]
      rfl
    have place : (Circular.mk isObjects (!true) ⟨size - 1 - 1,
        size⟩ 1 (size - 1) size both).position 1 = size := by
      simp [Circular.position, Circular.walkTo]
    rw [results_add (by omega) goesTo set, results_reverse (by omega),
      results_add (by omega) then_ setAgain,
      results_get (by omega) (by omega), Option.isSome_map, Option.isSome_map, Option.isSome_map,
      Option.isSome_map,
      Int.toNat_one, place, cell_beyond (by omega)]
    rfl
  · rcases @set_cell_exists _ data 0 (Int.le_refl 0) (by omega) value with ⟨cells, set⟩
    have length := set_cell_length set
    rcases @set_cell_exists _ cells (size - 1) (by omega) (by omega) value with ⟨both, setAgain⟩
    have lengthAgain := set_cell_length setAgain
    have goesTo : (Circular.mk isObjects false ⟨size, size⟩ (-1) 0 size data).nextNextIn = 0 := by
      simp [Circular.nextNextIn]
    have then_ : (Circular.mk isObjects (!false) ⟨size - 1, size⟩ 0 0 size cells).nextNextIn =
      size - 1 := rfl
    have place : 0 ≤ (Circular.mk isObjects (!false) ⟨size - 1 - 1,
        size⟩ (size - 1) 0 size both).position 1 ∧
        (Circular.mk isObjects (!false) ⟨size - 1 - 1, size⟩ (size - 1) 0 size both).position
        1 < size := by
      simp only [Circular.position, Circular.walkTo, Bool.not_false, if_true]
      split_ifs <;> omega
    rw [results_add (by omega) goesTo set, results_reverse (by omega),
      results_add (by omega) then_ setAgain,
      results_get (by omega) (by omega), Option.isSome_map, Option.isSome_map, Option.isSome_map,
      Option.isSome_map,
      Int.toNat_one]
    exact cell_is_some place.1 (by omega)

theorem not_like_new_of_reversed (positive : 1 ≤ size) (whole : (data.length : Int) = size) :
    ¬ LikeNew husk blank ⟨isObjects, true, ⟨size, size⟩, -1, 0, size, data⟩ := by
  intro like
  have blanks : ((List.replicate size.toNat blank).length : Int) = size := by
    rw [List.length_replicate]
    omega
  by_cases single : size = 1
  · subst single
    have single : data.length = 1 := by omega
    have differs := (@reversed_single_differs _ husk blank data isObjects single blank).1
    have shows := (@reversed_single_differs _ husk blank [blank] isObjects rfl blank).2
    have same := congrArg Option.isSome (like [.call (.add blank), .get 0])
    rw [differs] at same
    exact Bool.false_ne_true (same.trans shows)
  · have more : 2 ≤ size := by omega
    have differs := (@reversed_differs _ husk blank size data isObjects more whole blank).1
    have shows := (@reversed_differs _ husk blank size _ isObjects more blanks blank).2
    have same := congrArg Option.isSome (like [.call (.add blank), .call .reverse,
      .call (.add blank), .get 1])
    rw [differs] at same
    exact Bool.false_ne_true (same.trans shows)

/-! ## What the cells hold -/

theorem cell_shown_later {k : Nat} (low : 2 ≤ k) (high : k < size)
    (whole : (data.length : Int) = size) (value : Item) :
    ∃ visited, results husk blank (Circular.new size isObjects data)
        (List.replicate k (.call (.add value)) ++ [.call .reverse, .iterate]) =
      some (List.replicate k (.call (.call (.returns true (some value)))) ++ [.call .done,
        .visited visited]) ∧
      visited[1]? = some (cellAt data k) := by
  rcases @results_adds _ husk blank size data isObjects value k 0 (Int.le_refl 0)
      (by omega) whole with
    ⟨filled, length, kept, goesOn⟩
  rw [Int.sub_zero, Int.zero_add, Int.zero_sub] at goesOn
  have behind : ((0 : Int) - 1) % size = slot size (k - 1) (-1) k := by
    rw [slot]
    congr 1
    omega
  have iterated := @results_iterate _ husk blank size filled isObjects 0
    ((k : Int) - 1) k (by omega)
    (Int.le_of_lt high) (by omega) (by omega) behind (by omega)
  have next : slot size (k - 1) 1 1 = k := by
    rw [slot]
    exact (congrArg (· % size) (by omega)).trans (Int.emod_eq_of_lt (Int.natCast_nonneg k) high)
  refine ⟨(List.range k).map fun j => cellAt filled (slot size (k - 1) 1 j), ?_, ?_⟩
  · rw [Circular.new, goesOn, results_reverse (by omega), Bool.not_false, iterated]
    rfl
  · rw [List.getElem?_map, List.getElem?_range (by omega), Option.map_some, next, kept k (by omega)]

theorem cell_shown_first (more : 3 ≤ size) (whole : (data.length : Int) = size) (value : Item) :
    ∃ visited, results husk blank (Circular.new size isObjects data)
        [.call (.add value), .call .reverse, .call (.add value), .iterate] =
      some [.call (.call (.returns true (some value))), .call .done,
        .call (.call (.returns true (some value))),
        .visited visited] ∧
      visited[1]? = some (cellAt data 1) := by
  rcases @set_cell_exists _ data 0 (Int.le_refl 0) (by omega) value with ⟨cells, set⟩
  have length := set_cell_length set
  rcases @set_cell_exists _ cells (size - 1) (by omega) (by omega) value with ⟨both, setAgain⟩
  have lengthAgain := set_cell_length setAgain
  have goesTo : (Circular.mk isObjects false ⟨size, size⟩ (-1) 0 size data).nextNextIn = 0 := by
    simp [Circular.nextNextIn]
  have atEnd : (Circular.mk isObjects (!false) ⟨size - 1, size⟩ 0 0 size cells).nextNextIn =
    size - 1 := rfl
  have onlyOne : 1 ≤ size - (size - 1) := by omega
  have stillRoom : 1 ≤ size - 1 := by omega
  have back : size - 1 - 1 = 0 + -1 * ((2 : Nat) : Int) + size := by omega
  have behind : (size - 1 - 1) % size = slot size 0 (-1) 2 := by
    rw [slot, back, Int.add_emod_right]
  have iterated := @results_iterate _ husk blank size both isObjects (size - 1) 0 2 (by omega)
    (by omega) (by omega) (by omega) behind (by omega)
  have next : slot size 0 1 1 = 1 := Int.emod_eq_of_lt (by decide) (by omega)
  have count : size - 1 - 1 = size - (2 : Nat) := by omega
  refine ⟨(List.range 2).map fun j => cellAt both (slot size 0 1 j), ?_, ?_⟩
  · rw [Circular.new, results_add (by omega) goesTo set, results_reverse onlyOne,
      results_add stillRoom atEnd setAgain, count, Bool.not_false, iterated]
    rfl
  · rw [List.getElem?_map, List.getElem?_range (by decide), Option.map_some, next,
      set_cell_read setAgain,
      if_neg (by omega), set_cell_read set, if_neg (by decide)]

theorem cells_of_results {other : List Item} (more : 3 ≤ size) (whole : (data.length : Int) = size)
    (otherWhole : (other.length : Int) = size)
    (same : ∀ uses, results husk blank (Circular.new size isObjects data) uses =
      results husk blank (Circular.new size isObjects other) uses) {k : Int} (low : 1 ≤ k)
      (high : k < size) :
    cellAt data k = cellAt other k := by
  rcases @cell_exists _ data 0 (Int.le_refl 0) (by omega) with ⟨value, _⟩
  by_cases first : k = 1
  · subst first
    rcases @cell_shown_first _ husk blank size data isObjects more whole value with ⟨left,
      gave, shows⟩
    rcases @cell_shown_first _ husk blank size other isObjects more otherWhole value with ⟨right,
      gaveOther, showsOther⟩
    rw [same, gaveOther] at gave
    simp only [Option.some.injEq, List.cons.injEq, Result.visited.injEq, true_and, and_true] at gave
    rw [← gave, showsOther] at shows
    exact (Option.some.inj shows).symm
  · rcases Int.eq_ofNat_of_zero_le (show 0 ≤ k by omega) with ⟨n, rfl⟩
    have later : 2 ≤ n := by omega
    rcases @cell_shown_later _ husk blank size data isObjects n later high whole value with ⟨left,
      gave, shows⟩
    rcases @cell_shown_later _ husk blank size other isObjects n later high otherWhole value with
      ⟨right, gaveOther, showsOther⟩
    rw [same, gaveOther] at gave
    simp only [Option.some.injEq, List.append_cancel_left_eq, List.cons.injEq,
      Result.visited.injEq, true_and,
      and_true] at gave
    rw [← gave, showsOther] at shows
    exact (Option.some.inj shows).symm

theorem blank_cell (blank : Item) {k : Int} (low : 0 ≤ k) (high : k < size) :
    cellAt (List.replicate size.toNat blank) k = some blank := by
  have bound : k.toNat < size.toNat := by omega
  rw [cellAt, if_pos low, List.getElem?_replicate, if_pos bound]

theorem tails_eq {x y : Item} {rest others : List Item} (whole : ((x :: rest).length : Int) = size)
    (otherWhole : ((y :: others).length : Int) = size)
    (same : ∀ k, 1 ≤ k → k < size → cellAt (x :: rest) k = cellAt (y :: others) k) :
    rest = others := by
  simp only [List.length_cons] at whole otherWhole
  apply List.ext_getElem?
  intro n
  by_cases inside : n < rest.length
  · have here := same (n + 1 : Nat) (by omega) (by omega)
    have low : (0 : Int) ≤ (n + 1 : Nat) := Int.natCast_nonneg _
    rwa [cellAt, cellAt, if_pos low, if_pos low, Int.toNat_natCast, List.getElem?_cons_succ,
      List.getElem?_cons_succ] at here
  · rw [List.getElem?_eq_none (by omega), List.getElem?_eq_none (by omega)]

theorem alike_new {other : List Item} (positive : 1 ≤ size) (whole : (data.length : Int) = size)
    (otherWhole : (other.length : Int) = size)
    (same : size ≤ 2 ∨ ∀ k, 1 ≤ k → k < size → cellAt data k = cellAt other k) :
    Alike (Circular.new size true data) (Circular.new size true other) := by
  cases data with
  | nil =>
      have none_ : size = 0 := whole.symm
      omega
  | cons x rest =>
    cases other with
    | nil =>
        have none_ : size = 0 := otherWhole.symm
        omega
    | cons y others =>
      by_cases two : size = 2
      · subst two
        simp only [List.length_cons] at whole otherWhole
        rcases List.length_eq_one_iff.mp (show rest.length = 1 by omega) with ⟨x', rfl⟩
        rcases List.length_eq_one_iff.mp (show others.length = 1 by omega) with ⟨y', rfl⟩
        exact .two x y x' y'
      · have tails : rest = others := by
          apply tails_eq whole otherWhole
          intro k low high
          rcases same with few | same
          · omega
          · exact same k low high
        subst tails
        exact .first size positive x y rest

/-- An emptied queue is like a new one when it is not reversed and what is left in its cells cannot
be shown or is what a new queue has there, and in no other case. -/
theorem like_new_iff {reverse : Bool} (positive : 1 ≤ size) (whole : (data.length : Int) = size) :
    LikeNew husk blank ⟨true, reverse, ⟨size, size⟩, -1, 0, size, data⟩ ↔
      reverse = false ∧ (size ≤ 2 ∨ ∀ k, 1 ≤ k → k < size → cellAt data k = some blank) := by
  have blanks : ((List.replicate size.toNat blank).length : Int) = size := by
    rw [List.length_replicate]
    omega
  constructor
  · intro like
    cases reverse with
    | true => exact absurd like (not_like_new_of_reversed positive whole)
    | false =>
        refine ⟨rfl, ?_⟩
        by_cases few : size ≤ 2
        · exact Or.inl few
        · refine Or.inr fun k low high => ?_
          rw [cells_of_results (by omega) whole blanks like low high,
            blank_cell blank (by omega) high]
  · rintro ⟨rfl, left⟩ uses
    apply results_alike
    apply alike_new positive whole blanks
    rcases left with few | same
    · exact Or.inl few
    · refine Or.inr fun k low high => ?_
      rw [same k low high, blank_cell blank (by omega) high]

end Calls

end TWlib.CircularEmptied
