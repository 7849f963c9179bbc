import TWlib.BufBlkChain

/-!
# `BufBlk::hexDump` and its limit

Strings are lists of characters. For each byte the budget is charged one character and one for a
comma, four for the brackets of a block and the arrow behind it, and three for the end. What is
written is more: two digits for a byte, the size of the block, and the marks at the two positions.
-/

namespace TWlib.BufBlkHexDump

open TWlib.Lib.CellStore TWlib.Lib.LinkedChain TWlib.BufBlkHeap TWlib.BufBlkChain

set_option autoImplicit false

abbrev Text := List Char

/-! ## The code -/

def intMax : Int := 2147483647

def hexDigit (value : Nat) : Char :=
  ['0', '1', '2', '3', '4', '5', '6', '7', '8', '9', 'A', 'B', 'C', 'D', 'E', 'F'].getD value '0'

/-- What `snprintf(buf,8,"%02X",..)` leaves in `buf`. -/
def hexByte (byte : Byte) : Text := [hexDigit (byte.toNat / 16), hexDigit (byte.toNat % 16)]

/-- What `snprintf(buf,8,"(%d",..)` leaves in `buf`, at most seven characters, and `")["`. -/
def header (size : Nat) : Text := ('(' :: Nat.toDigits 10 size).take 7 ++ [')', '[']

def markAt (rdptr wrptr walk : Int) : Text :=
  if rdptr = walk then
    if rdptr = wrptr then ['R', '*', 'W'] else ['R', 'D', '*']
  else if wrptr = walk then ['W', 'R', '*']
  else []

/-- What a loop has written, where `walk` stands, and what is left. -/
structure Dumped where
  text : Text
  walk : Int
  left : Int

/-- The loop of `_concatHexDump` over the bytes that are still to come. -/
def dumpBytes (rdptr wrptr : Int) : List Byte → Int → Int → Dumped
  | [], walk, left => ⟨[], walk, left⟩
  | byte :: rest, walk, left =>
      if left < 6 then ⟨[], walk, left⟩
      else
        let left := left - 1
        let comma := if rest = [] then [] else [',']
        let left := if rest = [] then left else left - 1
        let more := dumpBytes rdptr wrptr rest (walk + 1) left
        { more with text := markAt rdptr wrptr walk ++ hexByte byte ++ comma ++ more.text }

/-- `_concatHexDump`: what it writes, and the value returned. -/
def concatHexDump (mem : MemBlk) (rdptr wrptr : Int) (max : Int) : Text × Int :=
  let dumped := dumpBytes rdptr wrptr mem.bytes mem.base (if max = 0 then intMax else max)
  let last := if dumped.walk = wrptr then ['W', 'R', '*'] else []
  (header mem.bytes.length ++ dumped.text ++ last ++ [']'], max - dumped.left)

/-- The loop of `hexDump`. -/
def hexDumpFrom (max : Int) : Nat → Heap → Option BufId → Int → Option Text
  | _, _, none, _ => some []
  | 0, _, some _, _ => none
  | fuel + 1, heap, some look, left =>
      let left := left - 4
      if max ≠ 0 ∧ left ≤ 0 then some []
      else do
        let blk ← heap.bufs.read look
        let m ← blk.blk
        let mem ← heap.mems.read m
        let (text, used) := concatHexDump mem blk.rdPtr blk.wrPtr (if max ≠ 0 then left else 0)
        let rest ← hexDumpFrom max fuel heap blk.nextblk (if max ≠ 0 then left - used else left)
        some (text ++ ['-', '>'] ++ rest)

def hexDump (heap : Heap) (this : BufId) (max : Int) : Option Text := do
  let text ← hexDumpFrom max heap.bufs.fresh heap (some this) (max - 3)
  some (text ++ ['E', 'N', 'D'])

/-! ## How much is written for a block -/

/-- A block as `hexDump` sees it. -/
structure View where
  mem : MemBlk
  rdPtr : Int
  wrPtr : Int

def View.size (view : View) : Nat := view.mem.bytes.length

/-- How many bytes a budget is enough for. -/
def shownOf (size : Nat) (left : Int) : Nat := min size ((left - 4) / 2).toNat

def View.shown (view : View) (left : Int) : Nat := shownOf view.size left

/-- What they are charged: one each, and one for each comma. -/
def View.charge (view : View) (left : Int) : Nat := view.shown left + min (view.shown left)
    (view.size - 1)

/-- The characters of the marks when `count` bytes are shown. The write position is marked at the
next byte as well, and not a second time where the read position is. -/
def View.marks (view : View) (count : Nat) : Nat :=
  (if view.mem.base ≤ view.rdPtr ∧ view.rdPtr < view.mem.base + count then 3 else 0) +
    if view.mem.base ≤ view.wrPtr ∧ view.wrPtr ≤ view.mem.base + count ∧
      ¬ (view.wrPtr = view.rdPtr ∧ view.wrPtr < view.mem.base + count) then 3 else 0

/-- All characters for a block of which `count` bytes are shown, with the arrow behind it. -/
def View.length (view : View) (count : Nat) : Nat :=
  (header view.size).length + 2 * count + min count (view.size - 1) + view.marks count + 3

variable {view : View} {left : Int} {count : Nat}

theorem header_length (size : Nat) : 4 ≤ (header size).length := by
  have digits : 0 < (Nat.toDigits 10 size).length := Nat.length_toDigits_pos
  simp only [header, List.length_append, List.length_take, List.length_cons, List.length_nil]
  omega

theorem mark_at_length (rdptr wrptr walk : Int) :
    (markAt rdptr wrptr walk).length = if rdptr = walk ∨ wrptr = walk then 3 else 0 := by
  unfold markAt
  split_ifs <;> simp_all

theorem marks_nil (rdptr wrptr walk : Int) :
    ((if walk ≤ rdptr ∧ rdptr < walk + (0 : Nat) then 3 else 0) +
      if walk ≤ wrptr ∧ wrptr < walk + (0 : Nat) ∧ wrptr ≠ rdptr then 3 else 0) = 0 := by
  have nothing : ∀ p : Int, ¬ (walk ≤ p ∧ p < walk + (0 : Nat)) := by
    intro p
    omega
  simp only [← and_assoc, nothing, false_and, if_false]

theorem marks_cons (rdptr wrptr walk : Int) (count : Nat) :
    (if rdptr = walk ∨ wrptr = walk then 3 else 0) +
      ((if walk + 1 ≤ rdptr ∧ rdptr < walk + 1 + count then 3 else 0) +
        if walk + 1 ≤ wrptr ∧ wrptr < walk + 1 + count ∧ wrptr ≠ rdptr then 3 else 0) =
      (if walk ≤ rdptr ∧ rdptr < walk + (count + 1 : Nat) then 3 else 0) +
        if walk ≤ wrptr ∧ wrptr < walk + (count + 1 : Nat) ∧ wrptr ≠ rdptr then 3 else 0 := by
  have later : ∀ p : Int, (walk ≤ p ∧ p < walk + (count + 1 : Nat)) ↔
      p = walk ∨ walk + 1 ≤ p ∧ p < walk + 1 + count := by
    intro p
    omega
  have before : ¬ walk + 1 ≤ walk := by omega
  simp only [← and_assoc, later]
  by_cases reads : rdptr = walk
  · by_cases writes : wrptr = walk
    · simp [reads, writes, before]
    · simp [reads, writes, before]
  · by_cases writes : wrptr = walk
    · simp [reads, writes, before, Ne.symm reads, Nat.add_comm]
    · simp [reads, writes]

/-- What the loop writes and charges, by induction on the bytes. -/
theorem dump_bytes_eq (rdptr wrptr : Int) (bytes : List Byte) (walk left : Int) :
    (dumpBytes rdptr wrptr bytes walk left).walk = walk + shownOf bytes.length left ∧
    (dumpBytes rdptr wrptr bytes walk left).left =
      left - shownOf bytes.length left - min (shownOf bytes.length left) (bytes.length - 1) ∧
    (dumpBytes rdptr wrptr bytes walk left).text.length =
      2 * shownOf bytes.length left + min (shownOf bytes.length left) (bytes.length - 1) +
        (if walk ≤ rdptr ∧ rdptr < walk + shownOf bytes.length left then 3 else 0) +
        if walk ≤ wrptr ∧ wrptr < walk + shownOf bytes.length left ∧ wrptr ≠ rdptr then 3
        else 0 := by
  induction bytes generalizing walk left with
  | nil =>
      have none : shownOf 0 left = 0 := by simp [shownOf]
      simp only [dumpBytes, List.length_nil, none]
      refine ⟨by omega, by omega, ?_⟩
      rw [Nat.add_assoc, marks_nil]
      rfl
  | cons byte rest ih =>
      by_cases short : left < 6
      · have none : shownOf (byte :: rest).length left = 0 := by simp only [shownOf]; omega
        simp only [dumpBytes, short, if_true, none, List.length_nil]
        refine ⟨by omega, by omega, ?_⟩
        rw [Nat.add_assoc, marks_nil, Nat.zero_min]
      · by_cases last : rest = []
        · subst last
          have one : shownOf 1 left = 1 := by simp only [shownOf]; omega
          have marked := marks_cons rdptr wrptr walk 0
          rw [marks_nil] at marked
          simp only [dumpBytes, short, if_false, if_true, List.length_cons, List.length_nil,
            Nat.zero_add, one,
            List.append_nil, List.length_append, mark_at_length, hexByte]
          refine ⟨by omega, by omega, ?_⟩
          conv_rhs => rw [Nat.add_assoc, ← marked]
          exact Nat.add_comm ..
        · have positive : 0 < rest.length := List.length_pos_of_ne_nil last
          obtain ⟨walked, charged, written⟩ := ih (walk + 1) (left - 1 - 1)
          have more : shownOf (rest.length + 1) left = shownOf rest.length (left - 1 - 1) + 1 := by
            simp only [shownOf]
            omega
          have marked := marks_cons rdptr wrptr walk (shownOf rest.length (left - 1 - 1))
          simp only [dumpBytes, short, last, if_false, List.length_cons, List.length_append,
            mark_at_length,
            hexByte, List.length_nil, written, charged, walked, more]
          refine ⟨by omega, by omega, ?_⟩
          conv_rhs => rw [Nat.add_assoc, ← marked]
          omega

theorem concat_hex_dump_charge (view : View) (left : Int) (limited : left ≠ 0) :
    (concatHexDump view.mem view.rdPtr view.wrPtr left).2 = view.charge left := by
  obtain ⟨-, charged, -⟩ := dump_bytes_eq view.rdPtr view.wrPtr view.mem.bytes view.mem.base left
  simp only [concatHexDump, limited, if_false, charged, View.charge, View.shown, View.size]
  omega

theorem marks_eq (view : View) (count : Nat) :
    ((if view.mem.base ≤ view.rdPtr ∧ view.rdPtr < view.mem.base + count then 3 else 0) +
      if view.mem.base ≤ view.wrPtr ∧ view.wrPtr < view.mem.base + count ∧
      view.wrPtr ≠ view.rdPtr then 3
      else 0) +
      (if view.mem.base + count = view.wrPtr then ['W', 'R', '*'] else []).length =
      view.marks count := by
  unfold View.marks
  simp only [apply_ite List.length, List.length_cons, List.length_nil]
  split_ifs <;> omega

theorem concat_hex_dump_length (view : View) (left : Int) (limited : left ≠ 0) :
    ((concatHexDump view.mem view.rdPtr view.wrPtr left).1 ++ ['-', '>']).length =
      view.length (view.shown left) := by
  obtain ⟨walked, -, written⟩ :=
    dump_bytes_eq view.rdPtr view.wrPtr view.mem.bytes view.mem.base left
  have marked := marks_eq view (shownOf view.mem.bytes.length left)
  simp only [concatHexDump, limited, if_false, List.length_append, walked, written, View.length,
    View.shown, View.size, List.length_cons, List.length_nil]
  omega

/-! ## The whole dump -/

def Views (heap : Heap) (ids : List BufId) (views : List View) : Prop :=
  List.Forall₂ (fun id view => ∃ blk m, heap.bufs.read id = some blk ∧ blk.blk = some m ∧
    heap.mems.read m = some view.mem ∧ blk.rdPtr = view.rdPtr ∧ blk.wrPtr = view.wrPtr) ids views

/-- What is written before the end when `left` is left before the first of these blocks. -/
def dumpLength : Int → List View → Nat
  | _, [] => 0
  | left, view :: rest =>
      if left ≤ 4 then 0
      else view.length (view.shown (left - 4)) + dumpLength (left - 4 - view.charge (left - 4)) rest

/-- What is written before the end without a limit. -/
def fullLength (views : List View) : Nat := (views.map fun view => view.length view.size).sum

theorem hex_dump_from_length {max : Int} (limited : max ≠ 0) {heap : Heap} {ids : List BufId}
    {views : List View} {look : Option BufId} {fuel : Nat} {left : Int}
    (chain : Chain heap.next look ids) (seen : Views heap ids views) (enough : ids.length ≤ fuel) :
    ∃ text, hexDumpFrom max fuel heap look left = some text ∧
    text.length = dumpLength left views := by
  induction ids generalizing look fuel left views with
  | nil =>
      cases seen
      have atEnd : look = none := chain
      subst atEnd
      exact ⟨[], by cases fuel <;> rfl, rfl⟩
  | cons id ids ih =>
      obtain ⟨first, after, step, tail⟩ := chain
      subst first
      obtain ⟨view, others, ⟨blk, m, present, owner, memPresent, reading, writing⟩,
          othersSeen, rfl⟩ :=
        List.forall₂_cons_left_iff.mp seen
      obtain ⟨fuel, rfl⟩ : ∃ more, fuel = more + 1 :=
        ⟨fuel - 1, by rw [List.length_cons] at enough; omega⟩
      by_cases done : left ≤ 4
      · have stops : left - 4 ≤ 0 := by omega
        exact ⟨[], by simp only [hexDumpFrom, limited, stops, ne_eq, not_false_eq_true,
          true_and, if_true],
          by rw [dumpLength, if_pos done, List.length_nil]⟩
      · have goesOn : ¬ (left - 4 ≤ 0) := by omega
        have used := concat_hex_dump_charge view (left - 4) (by omega)
        have written := concat_hex_dump_length view (left - 4) (by omega)
        have following : after = blk.nextblk := by
          rw [next_of_read present, Option.some.injEq] at step
          exact step.symm
        subst following
        obtain ⟨rest, ran, length⟩ := @ih _ _ _ (left - 4 - view.charge (left - 4)) tail othersSeen
          (Nat.le_of_succ_le_succ enough)
        refine ⟨(concatHexDump view.mem view.rdPtr view.wrPtr (left - 4)).1 ++ ['-', '>'] ++ rest,
          ?_, ?_⟩
        · simp only [hexDumpFrom, limited, goesOn, ne_eq, not_false_eq_true, true_and,
            if_false, if_true,
            present, owner, memPresent, reading, writing, Option.bind_eq_bind,
            Option.bind_some, used, ran]
        · rw [List.length_append, written, length, dumpLength, if_neg done]

/-! ## When the dump keeps its limit -/

theorem charge_le_length (view : View) (left : Int) :
    view.charge left + 7 ≤ view.length (view.shown left) := by
  have wide := header_length view.size
  simp only [View.charge, View.length]
  omega

theorem length_le (view : View) (less : count ≤ view.size) :
    view.length count ≤ view.length view.size := by
  have marks : view.marks count ≤ view.marks view.size + 2 * (view.size - count) := by
    unfold View.marks
    split_ifs <;> omega
  simp only [View.length]
  omega

theorem shown_le (view : View) (left : Int) : view.shown left ≤ view.size := Nat.min_le_left _ _

theorem charge_of_truncated (truncated : view.shown left ≠ view.size) :
    left ≤ view.charge left + 5 := by
  simp only [View.charge, View.shown, shownOf] at truncated ⊢
  omega

theorem dump_length_le (left : Int) (views : List View) :
    dumpLength left views ≤ fullLength views := by
  induction views generalizing left with
  | nil => exact Nat.le_refl 0
  | cons view rest ih =>
      have first := length_le view (shown_le view (left - 4))
      have others := ih (left - 4 - view.charge (left - 4))
      simp only [fullLength, List.map_cons, List.sum_cons] at others ⊢
      unfold dumpLength
      split_ifs <;> omega

/-- Unless everything is shown, what is written for one block or more is nearly all that was
left. -/
theorem dump_length_cases (left : Int) (views : List View) :
    dumpLength left views = fullLength views ∨ left ≤ 4 ∨ left ≤ dumpLength left views + 2 := by
  induction views generalizing left with
  | nil => exact .inl rfl
  | cons view rest ih =>
      by_cases done : left ≤ 4
      · exact .inr (.inl done)
      · have written := charge_le_length view (left - 4)
        have length : dumpLength left (view :: rest) = view.length (view.shown (left - 4)) +
            dumpLength (left - 4 - view.charge (left - 4)) rest := by rw [dumpLength, if_neg done]
        by_cases truncated : view.shown (left - 4) = view.size
        · have full : fullLength (view :: rest) = view.length (view.shown (left - 4)) +
              fullLength rest := by
            rw [truncated]
            rfl
          have others := ih (left - 4 - view.charge (left - 4))
          omega
        · have little := charge_of_truncated truncated
          omega

/-- The complete dump fits; or there is room for the end only; or the budget is used up by a
beginning of the first block, and that fits. -/
def Fits (views : List View) (max : Int) : Prop :=
  fullLength views + 3 ≤ max ∨ (3 ≤ max ∧ max ≤ 7) ∨
    ∃ first rest, views = first :: rest ∧ 7 < max ∧
      (rest = [] ∨ max ≤ first.charge (max - 7) + 11) ∧
      first.length (first.shown (max - 7)) + 3 ≤ max

theorem dump_length_fits_iff {max : Int} (view : View) (rest : List View) :
    (dumpLength (max - 3) (view :: rest) : Int) + 3 ≤ max ↔ Fits (view :: rest) max := by
  have atMost := dump_length_le (max - 3) (view :: rest)
  by_cases done : max - 3 ≤ 4
  · have nothing : dumpLength (max - 3) (view :: rest) = 0 := by rw [dumpLength, if_pos done]
    have long := charge_le_length view 0
    have full : view.length (view.shown 0) ≤ fullLength (view :: rest) := by
      have first := length_le view (shown_le view 0)
      simp only [fullLength, List.map_cons, List.sum_cons]
      omega
    constructor
    · intro fits
      exact .inr (.inl ⟨by omega, by omega⟩)
    · rintro (whole | ⟨low, -⟩ | ⟨-, -, -, high, -⟩) <;> omega
  · have budget : max - 3 - 4 = max - 7 := by omega
    have length : dumpLength (max - 3) (view :: rest) = view.length (view.shown (max - 7)) +
        dumpLength (max - 7 - view.charge (max - 7)) rest := by rw [dumpLength, if_neg done, budget]
    constructor
    · intro fits
      have written := charge_le_length view (max - 7)
      cases rest with
      | nil => exact .inr (.inr ⟨view, [], rfl, by omega, .inl rfl, by omega⟩)
      | cons second others =>
          by_cases used : max ≤ view.charge (max - 7) + 11
          · exact .inr (.inr ⟨view, second :: others, rfl, by omega, .inr used, by omega⟩)
          · -- a second block is written, so that everything has to be
            have more := dump_length_cases (max - 7 - view.charge (max - 7)) (second :: others)
            have secondWritten := charge_le_length second (max - 7 - view.charge (max - 7) - 4)
            have secondLength : second.length (second.shown (max - 7 - view.charge (max - 7) - 4)) ≤
                dumpLength (max - 7 - view.charge (max - 7)) (second :: others) := by
              rw [dumpLength, if_neg (by omega)]
              omega
            have complete : view.shown (max - 7) = view.size := by
              by_contra truncated
              have little := charge_of_truncated truncated
              omega
            have full : fullLength (view :: second :: others) =
                view.length (view.shown (max - 7)) + fullLength (second :: others) := by
              rw [complete]
              rfl
            refine .inl ?_
            omega
    · rintro (whole | ⟨-, high⟩ | ⟨first, others, same, -, alone, fits⟩)
      · omega
      · omega
      · cases same
        have none : dumpLength (max - 7 - view.charge (max - 7)) rest = 0 := by
          rcases alone with rfl | used
          · rfl
          · cases rest with
            | nil => rfl
            | cons second others =>
                rw [dumpLength, if_pos (by omega)]
        omega

/-- The string is at most `max` characters long exactly in the cases of `Fits`. -/
theorem hex_dump_fits_iff {heap : Heap} {this : BufId} {ids : List BufId}
    {views : List View} {max : Int} (chain : Chain heap.next (some this) ids)
    (seen : Views heap ids views) (limited : 0 < max) :
    ∃ text, hexDump heap this max = some text ∧ ((text.length : Int) ≤ max ↔ Fits views max) := by
  have nonzero : max ≠ 0 := by omega
  obtain ⟨text, ran, length⟩ :=
    @hex_dump_from_length max nonzero heap ids views (some this) heap.bufs.fresh
    (max - 3) chain seen (chain_bound chain)
  refine ⟨text ++ ['E', 'N', 'D'], by simp only [hexDump, ran, Option.bind_eq_bind,
    Option.bind_some], ?_⟩
  cases seen with
  | nil => cases chain
  | @cons id view ids views first others =>
      have fits := @dump_length_fits_iff max view views
      rw [← length] at fits
      rw [← fits]
      simp

def threeViews : List View :=
  [⟨⟨1, 100, [1, 2], true⟩, 100, 102⟩, ⟨⟨1, 200, [3, 4], true⟩, 200, 202⟩,
    ⟨⟨1, 300, [5, 6], true⟩, 300, 302⟩]

theorem three_views : Views threeBlocks [0, 1, 2] threeViews := by
  refine .cons ?_ (.cons ?_ (.cons ?_ .nil))
  · exact ⟨_, _, rfl, rfl, rfl, rfl, rfl⟩
  · exact ⟨_, _, rfl, rfl, rfl, rfl, rfl⟩
  · exact ⟨_, _, rfl, rfl, rfl, rfl, rfl⟩

/-- Sixty characters are enough for three blocks of two bytes. -/
theorem hex_dump_fits_iff_sixty : ∃ text, hexDump threeBlocks 0 60 = some text ∧
    ((text.length : Int) ≤ 60 ↔ Fits threeViews 60) :=
  hex_dump_fits_iff three_blocks_ok.linked three_views (by decide)

/-- Of forty characters each block is charged seven, and fifty-seven are written. -/
theorem hex_dump_not_always_fits : ∃ text, hexDump threeBlocks 0 40 = some text ∧
    text = "(2)[RD*01,02WR*]->(2)[RD*03,04WR*]->(2)[RD*05,06WR*]->END".toList ∧
    ¬ (text.length : Int) ≤ 40 :=
  ⟨_, rfl, by decide, by decide⟩

end TWlib.BufBlkHexDump
