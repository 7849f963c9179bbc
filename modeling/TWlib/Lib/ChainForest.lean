import Mathlib.Data.List.Perm.Basic
import TWlib.Lib.LinkedChain

/-!
# A store whose cells are divided into chains

Every existing cell is on one chain, and the chains have no cell in common. The
lemmas follow the division through the changes of a single link: a cell is made,
a chain is hung behind another one, a chain goes.
-/

namespace TWlib.Lib.ChainForest

open TWlib.Lib.LinkedChain

set_option autoImplicit false

variable {Cell : Type*}

structure Forest (next : Cell → Option (Option Cell)) (chains : List (List Cell)) : Prop where
  linked : ∀ ids ∈ chains, Chain next ids.head? ids
  filled : [] ∉ chains
  nodup : chains.flatten.Nodup
  covers : ∀ cell, cell ∈ chains.flatten ↔ ∃ follow, next cell = some follow

/-- Nothing points at the cell. -/
def Head (next : Cell → Option (Option Cell)) (cell : Cell) : Prop :=
  (∃ follow, next cell = some follow) ∧ ∀ before, next before ≠ some (some cell)

variable {next other : Cell → Option (Option Cell)} {chains others : List (List Cell)}
  {ids pre tail : List Cell} {cell target : Cell}

theorem forest_empty (none_yet : ∀ cell, next cell = none) : Forest next [] :=
  ⟨by simp, by simp, by simp, fun cell => by simp [none_yet]⟩

theorem forest_frame (forest : Forest next chains) (same : ∀ cell, other cell = next cell) :
    Forest other chains := by
  have equal : other = next := funext same
  rw [equal]
  exact forest

theorem forest_perm {again : List (List Cell)} (forest : Forest next chains)
    (perm : chains.Perm again) :
    Forest next again := by
  have flat : chains.flatten.Perm again.flatten := perm.flatten
  refine ⟨fun ids member => forest.linked ids (perm.mem_iff.mpr member), ?_, ?_, fun cell => ?_⟩
  · rw [← perm.mem_iff]
    exact forest.filled
  · exact flat.nodup_iff.mp forest.nodup
  · rw [← flat.mem_iff]
    exact forest.covers cell

theorem forest_pick (forest : Forest next chains) (member : ids ∈ chains) :
    ∃ others, Forest next (ids :: others) ∧ ∀ chain, chain ∈ chains ↔ chain = ids ∨
    chain ∈ others := by
  rcases List.append_of_mem member with ⟨front, back, split⟩
  have perm : chains.Perm (ids :: (front ++ back)) := split ▸ List.perm_middle
  refine ⟨front ++ back, forest_perm forest perm, fun chain => ?_⟩
  rw [perm.mem_iff, List.mem_cons]

theorem forest_find (forest : Forest next chains) {follow : Option Cell}
    (exists_ : next cell = some follow) :
    ∃ pre tail, pre ++ cell :: tail ∈ chains := by
  rcases List.mem_flatten.mp ((forest.covers cell).mpr ⟨follow, exists_⟩) with ⟨ids, member, inside⟩
  rcases List.append_of_mem inside with ⟨pre, tail, split⟩
  exact ⟨pre, tail, split ▸ member⟩

theorem forest_chain_from (forest : Forest next chains) (member : pre ++ cell :: tail ∈ chains) :
    Chain next (some cell) (cell :: tail) :=
  ((chain_append _ pre (cell :: tail)).mp (forest.linked _ member)).2

theorem forest_head (forest : Forest next chains) (head : Head next cell) :
    ∃ tail, cell :: tail ∈ chains := by
  rcases head with ⟨⟨follow, exists_⟩, unseen⟩
  rcases forest_find forest exists_ with ⟨pre, tail, member⟩
  have nothing : pre = [] := by
    by_contra filled
    have chain := forest.linked _ member
    rw [← List.dropLast_append_getLast filled, List.append_assoc, chain_append] at chain
    rcases chain.2 with ⟨-, after, step, rest⟩
    have same : after = some cell := by simpa using chain_start rest
    exact unseen _ (same ▸ step)
  subst nothing
  exact ⟨tail, member⟩

theorem forest_pick_both {left right : List Cell} (forest : Forest next chains)
    (leftMember : left ∈ chains) (rightMember : right ∈ chains) (different : right ≠ left) :
    ∃ others, Forest next (left :: right :: others) := by
  rcases forest_pick forest leftMember with ⟨others, picked, same⟩
  have elsewhere : right ∈ others := ((same right).mp rightMember).resolve_left different
  rcases List.append_of_mem elsewhere with ⟨front, back, rfl⟩
  exact ⟨front ++ back, forest_perm picked (List.perm_middle.cons left)⟩

theorem forest_apart (forest : Forest next (ids :: others)) (member : cell ∈ ids) :
    cell ∉ others.flatten := by
  have nodup := forest.nodup
  rw [List.flatten_cons] at nodup
  exact List.disjoint_of_nodup_append nodup member

theorem forest_alive (forest : Forest next (ids :: others)) (member : cell ∈ ids) :
    ∃ follow, next cell = some follow :=
  (forest.covers cell).mp (by simp [member])

theorem forest_replace {gone : List (List Cell)} (forest : Forest next (gone ++ others))
    (same : ∀ cell ∈ others.flatten, other cell = next cell) (chain : Chain other ids.head? ids)
    (filled : ids ≠ []) (apart : ∀ cell ∈ ids, cell ∉ others.flatten)
    (covers : ∀ cell, (∃ follow, other cell = some follow) ↔ cell ∈ ids ∨ cell ∈ others.flatten) :
    Forest other (ids :: others) := by
  refine ⟨fun chain' member => ?_, ?_, ?_, fun cell => ?_⟩
  · rcases List.mem_cons.mp member with rfl | old
    · exact chain
    · apply chain_frame (forest.linked chain' (List.mem_append_right gone old))
      intro cell inside
      exact same cell (List.mem_flatten.mpr ⟨chain', old, inside⟩)
  · rw [List.mem_cons, not_or]
    exact ⟨Ne.symm filled, fun member => forest.filled (List.mem_append_right gone member)⟩
  · have nodup := forest.nodup
    rw [List.flatten_append] at nodup
    rw [List.flatten_cons]
    refine List.nodup_append.mpr ⟨chain_nodup chain, (List.nodup_append.mp nodup).2.1, ?_⟩
    intro left leftMember right rightMember equal
    exact apart left leftMember (equal ▸ rightMember)
  · rw [List.flatten_cons, List.mem_append, covers]

theorem forest_make {gone : List (List Cell)} (forest : Forest next (gone ++ others))
    (flat : gone.flatten = ids) (chain : Chain next ids.head? ids) (new : next cell = none)
    (made : other cell = some ids.head?) (same : ∀ c, c ≠ cell → other c = next c) :
    Forest other ((cell :: ids) :: others) := by
  have covers : ∀ c, (∃ follow, next c = some follow) ↔ c ∈ ids ∨ c ∈ others.flatten := fun c => by
    rw [← forest.covers, List.flatten_append, flat, List.mem_append]
  have outside : ∀ c, c ∈ ids ∨ c ∈ others.flatten → c ≠ cell := by
    rintro c member rfl
    rcases (covers c).mpr member with ⟨follow, step⟩
    rw [new] at step
    cases step
  refine forest_replace forest (fun c member => same c (outside c (.inr member))) ?_ (by simp) ?_ ?_
  · refine ⟨rfl, ids.head?, made, ?_⟩
    exact chain_frame chain fun c member => same c (outside c (.inl member))
  · intro c member
    rcases List.mem_cons.mp member with rfl | old
    · exact fun also => outside c (.inr also) rfl
    · have nodup := forest.nodup
      rw [List.flatten_append, flat] at nodup
      exact List.disjoint_of_nodup_append nodup old
  · intro c
    by_cases here : c = cell
    · subst here
      exact ⟨fun _ => .inl List.mem_cons_self, fun _ => ⟨_, made⟩⟩
    · rw [same c here, covers, List.mem_cons]
      simp [here]

theorem forest_link (forest : Forest next ((pre ++ [target]) :: (cell :: tail) :: others))
    (linked : other target = some (some cell)) (same : ∀ c, c ≠ target → other c = next c) :
    Forest other ((pre ++ target :: cell :: tail) :: others) := by
  have nodup := forest.nodup
  simp only [List.flatten_cons] at nodup
  have notTarget : ∀ c ∈ (cell :: tail) ++ others.flatten, c ≠ target := by
    rintro c member rfl
    exact List.disjoint_of_nodup_append nodup (by simp) member
  have whole : Forest next ([pre ++ [target], cell :: tail] ++ others) := forest
  refine forest_replace whole (fun c member =>
    same c (notTarget c (List.mem_append_right _ member)))
    ?_ (by simp) ?_ ?_
  · have front := forest.linked (pre ++ [target]) (by simp)
    have back := forest.linked (cell :: tail) (by simp)
    have nodupFront := (List.nodup_append.mp nodup).1
    have start : (pre ++ target :: cell :: tail).head? = (pre ++ [target]).head? := by
      cases pre <;> rfl
    have regroup : pre ++ target :: cell :: tail = (pre ++ [target]) ++ (cell :: tail) := by simp
    rw [start, regroup, chain_append]
    refine ⟨segment_relink front nodupFront (by simp) ?_ ?_, ?_⟩
    · intro c isLast
      have equal : target = c := by simpa using isLast
      exact equal ▸ linked
    · intro c member notLast
      exact same c fun equal => notLast (by simp [equal])
    · exact chain_frame back fun c member => same c (notTarget c (List.mem_append_left _ member))
  · intro c member also
    rcases List.mem_append.mp (show c ∈ (pre ++ [target]) ++
        (cell :: tail) by simpa using member) with
      left | right
    · exact List.disjoint_of_nodup_append nodup left (List.mem_append_right _ also)
    · exact List.disjoint_of_nodup_append (List.nodup_append.mp nodup).2.1 right also
  · intro c
    have covers := forest.covers c
    simp only [List.flatten_cons, List.mem_append, List.mem_cons, List.not_mem_nil,
      or_false] at covers
    simp only [List.mem_append, List.mem_cons]
    by_cases here : c = target
    · subst here
      exact ⟨fun _ => .inl (.inr (.inl rfl)), fun _ => ⟨_, linked⟩⟩
    · rw [same c here, ← covers]
      tauto

theorem forest_drop (forest : Forest next (ids :: others)) (gone : ∀ c ∈ ids, other c = none)
    (same : ∀ c, c ∉ ids → other c = next c) : Forest other others := by
  have nodup := forest.nodup
  rw [List.flatten_cons] at nodup
  have outside : ∀ c ∈ others.flatten, c ∉ ids := fun c member also =>
    List.disjoint_of_nodup_append nodup also member
  refine ⟨fun chain member => ?_, fun member => forest.filled (by simp [member]),
    (List.nodup_append.mp nodup).2.1, fun c => ?_⟩
  · apply chain_frame (forest.linked chain (by simp [member]))
    intro c inside
    exact same c (outside c (List.mem_flatten.mpr ⟨chain, member, inside⟩))
  · by_cases member : c ∈ ids
    · simp only [gone c member, reduceCtorEq, exists_false, iff_false]
      exact fun also => outside c also member
    · rw [same c member, ← forest.covers, List.flatten_cons, List.mem_append]
      simp [member]

theorem forest_cut (forest : Forest next ((pre ++ target :: tail) :: others))
    (gone : ∀ c ∈ tail, other c = none) (last : other target = some none)
    (same : ∀ c, c ≠ target → c ∉ tail → other c = next c) :
    Forest other ((pre ++ [target]) :: others) := by
  have nodup := forest.nodup
  rw [List.flatten_cons] at nodup
  have chainNodup := (List.nodup_append.mp nodup).1
  have outside : ∀ c ∈ others.flatten, c ≠ target ∧ c ∉ tail := by
    intro c member
    have apart := fun also => List.disjoint_of_nodup_append nodup also member
    exact ⟨fun equal => apart (by simp [equal]), fun also => apart (by simp [also])⟩
  have inFront : ∀ c ∈ pre, c ≠ target ∧ c ∉ tail := by
    intro c member
    have apart := List.disjoint_of_nodup_append chainNodup member
    exact ⟨fun equal => apart (by simp [equal]), fun also => apart (by simp [also])⟩
  have whole : Forest next ([pre ++ target :: tail] ++ others) := forest
  refine forest_replace whole (fun c member => same c (outside c member).1 (outside c member).2) ?_
    (by simp) ?_ ?_
  · have chain := forest.linked (pre ++ target :: tail) (by simp)
    have start : (pre ++ [target]).head? = (pre ++ target :: tail).head? := by cases pre <;> rfl
    rw [chain_append] at chain
    rw [start, chain_append]
    refine ⟨?_, rfl, none, last, rfl⟩
    exact segment_frame chain.1 fun c member => same c (inFront c member).1 (inFront c member).2
  · intro c member also
    rcases List.mem_append.mp member with left | right
    · exact List.disjoint_of_nodup_append nodup (List.mem_append_left _ left) also
    · have equal : c = target := by simpa using right
      exact (outside c also).1 equal
  · intro c
    have covers := forest.covers c
    simp only [List.flatten_cons, List.mem_append, List.mem_cons] at covers
    simp only [List.mem_append, List.mem_singleton]
    by_cases here : c = target
    · subst here
      exact ⟨fun _ => .inl (.inr rfl), fun _ => ⟨_, last⟩⟩
    · by_cases behind : c ∈ tail
      · have notFront : c ∉ pre := fun member => (inFront c member).2 behind
        have notOthers : c ∉ others.flatten := fun member => (outside c member).2 behind
        simp [gone c behind, here, notFront, notOthers]
      · rw [same c here behind, ← covers]
        simp [here, behind]

end TWlib.Lib.ChainForest
