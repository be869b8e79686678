import ShapeCodec.Frame.Block

namespace ShapeCodec.Frame.Block

def expand (runs : List (UInt8 × Nat)) : Bytes :=
  runs.flatMap fun run => List.replicate run.2 run.1

theorem expand_addByte (b : UInt8) (runs : List (UInt8 × Nat)) : expand (addByte b runs) = b :: expand runs := by
  cases runs with
  | nil => rfl
  | cons run runs =>
    obtain ⟨c, n⟩ := run
    rw [addByte]
    split
    · next h =>
      obtain ⟨rfl, -⟩ := h
      rfl
    · rfl

theorem expand_runs (bs : Bytes) : expand (runs bs) = bs := by
  induction bs with
  | nil => rfl
  | cons b bs ih =>
    change expand (addByte b (runs bs)) = b :: bs
    rw [expand_addByte, ih]

theorem length_addByte_le {b : UInt8} {runs : List (UInt8 × Nat)} (h : ∀ run ∈ runs, run.2 ≤ largest) :
    ∀ run ∈ addByte b runs, run.2 ≤ largest := by
  have hone : 1 ≤ largest := by decide
  cases runs with
  | nil => exact List.forall_mem_singleton.mpr hone
  | cons run runs =>
    obtain ⟨c, n⟩ := run
    rw [addByte]
    split
    · next hn => exact List.forall_mem_cons.mpr ⟨hn.2, (List.forall_mem_cons.mp h).2⟩
    · exact List.forall_mem_cons.mpr ⟨hone, h⟩

theorem length_runs_le (bs : Bytes) : ∀ run ∈ runs bs, run.2 ≤ largest := by
  induction bs with
  | nil => nofun
  | cons b bs ih => exact length_addByte_le ih

def contents (blocks : List Block) : Bytes :=
  blocks.flatMap content

theorem contents_addRun (run : UInt8 × Nat) (blocks : List Block) :
    contents (addRun run blocks) = List.replicate run.2 run.1 ++ contents blocks := by
  fun_cases addRun run blocks with
  | case2 => simp [contents, content]
  | _ => rfl

theorem length_addRun_le {run : UInt8 × Nat} {blocks : List Block} (hr : run.2 ≤ largest)
    (h : ∀ block ∈ blocks, block.content.length ≤ largest) :
    ∀ block ∈ addRun run blocks, block.content.length ≤ largest := by
  have hrun : (List.replicate run.2 run.1).length ≤ largest := by rwa [List.length_replicate]
  fun_cases addRun run blocks with
  | case2 _ content more hsum =>
    refine List.forall_mem_cons.mpr ⟨?_, (List.forall_mem_cons.mp h).2⟩
    rw [Block.content, List.length_append, List.length_replicate]
    omega
  | _ => exact List.forall_mem_cons.mpr ⟨hrun, h⟩

theorem contents_foldr_addRun (runs : List (UInt8 × Nat)) : contents (runs.foldr addRun []) = expand runs := by
  induction runs with
  | nil => rfl
  | cons run runs ih => rw [List.foldr_cons, contents_addRun, ih, expand, expand, List.flatMap_cons]

theorem length_foldr_addRun_le {runs : List (UInt8 × Nat)} (h : ∀ run ∈ runs, run.2 ≤ largest) :
    ∀ block ∈ runs.foldr addRun [], block.content.length ≤ largest := by
  induction runs with
  | nil => nofun
  | cons run runs ih =>
    obtain ⟨hrun, hruns⟩ := List.forall_mem_cons.mp h
    exact length_addRun_le hrun (ih hruns)

theorem split_spec (bs : Bytes) :
    split bs ≠ [] ∧ contents (split bs) = bs ∧ ∀ block ∈ split bs, block.content.length ≤ largest := by
  have hc : contents ((runs bs).foldr addRun []) = bs := by rw [contents_foldr_addRun, expand_runs]
  have hl := length_foldr_addRun_le (length_runs_le bs)
  rw [split]
  split
  · next h =>
    rw [h] at hc
    exact ⟨nofun, hc, List.forall_mem_singleton.mpr (Nat.zero_le _)⟩
  · next h => exact ⟨h, hc, hl⟩

theorem header_eq (last : Bool) {type size : Nat} (ht : type < 4) (hs : size ≤ largest) :
    ∃ a b c, header last type size = [a, b, c] ∧ littleEndianValue [a, b, c] / 8 = size ∧
      littleEndianValue [a, b, c] / 2 % 4 = type ∧ (littleEndianValue [a, b, c] % 2 = 1 ↔ last) := by
  have hv : littleEndianValue (header last type size) = (if last then 1 else 0) + 2 * type + 8 * size := by
    rw [header, littleEndianValue_littleEndian, Nat.mod_eq_of_lt]
    rw [largest] at hs
    split <;> omega
  refine ⟨_, _, _, rfl, ?_⟩
  change littleEndianValue (header last type size) / 8 = size ∧
    littleEndianValue (header last type size) / 2 % 4 = type ∧
    (littleEndianValue (header last type size) % 2 = 1 ↔ last)
  rw [hv]
  cases last
  · simp only [Bool.false_eq_true, if_false, iff_false]
    omega
  · simp only [if_true, iff_true]
    omega

theorem readContent_write (block : Block) (last : Bool) {room : Nat} (hr : block.content.length ≤ room) :
    ∃ type body, type < 4 ∧ block.write last = header last type block.content.length ++ body ∧
      ∀ rest, readContent type block.content.length room (body ++ rest) = some (block.content, rest) := by
  cases block with
  | raw bs =>
    refine ⟨0, bs, by decide, rfl, fun rest => ?_⟩
    rw [readContent, content, if_pos (by rw [List.length_append]; omega), List.take_left, List.drop_left]
  | run b n =>
    rw [content, List.length_replicate] at hr ⊢
    refine ⟨1, [b], by decide, rfl, fun rest => ?_⟩
    rw [List.singleton_append, readContent, if_pos hr]

theorem readAll_write {block : Block} (hl : block.content.length ≤ largest) {room : Nat}
    (hr : block.content.length ≤ room) (last : Bool) (fuel : Nat) (rest : Bytes) :
    readAll (fuel + 1) room (block.write last ++ rest) =
      if last then if block.content.length = room then some (block.content, rest) else none
      else (readAll fuel (room - block.content.length) rest).map fun r => (block.content ++ r.1, r.2) := by
  obtain ⟨type, body, ht, hw, hc⟩ := readContent_write block last hr
  obtain ⟨a, b, c, hh, hsize, htype, hlast⟩ := header_eq last ht hl
  rw [hw, hh, List.append_assoc, List.cons_append, List.cons_append, List.cons_append, List.nil_append,
    readAll, hsize, htype, hc, Option.bind_eq_bind, Option.bind_some]
  dsimp only
  rw [if_neg (Nat.not_lt.mpr hr)]
  simp only [hlast]

theorem readAll_writeAll {blocks : List Block} (hne : blocks ≠ [])
    (hl : ∀ block ∈ blocks, block.content.length ≤ largest) {fuel : Nat} (hf : blocks.length ≤ fuel)
    (rest : Bytes) :
    readAll fuel (contents blocks).length (writeAll blocks ++ rest) = some (contents blocks, rest) := by
  induction blocks generalizing fuel with
  | nil => exact absurd rfl hne
  | cons block blocks ih =>
    obtain ⟨hblock, hblocks⟩ := List.forall_mem_cons.mp hl
    cases fuel with
    | zero => cases hf
    | succ fuel =>
      cases blocks with
      | nil =>
        rw [contents, List.flatMap_singleton, writeAll, readAll_write hblock (Nat.le_refl _), if_pos rfl,
          if_pos rfl]
      | cons next blocks =>
        -- A block that is not the last leaves the room that the others need.
        have hc : contents (block :: next :: blocks) = block.content ++ contents (next :: blocks) := rfl
        have hw : writeAll (block :: next :: blocks) = block.write false ++ writeAll (next :: blocks) := rfl
        have hroom : (block.content ++ contents (next :: blocks)).length - block.content.length =
            (contents (next :: blocks)).length := by
          rw [List.length_append, Nat.add_sub_cancel_left]
        rw [hc, hw, List.append_assoc, readAll_write hblock (by rw [List.length_append]; omega),
          if_neg Bool.false_ne_true, hroom, ih nofun hblocks (Nat.le_of_succ_le_succ hf), Option.map_some]

theorem length_le_writeAll (blocks : List Block) : blocks.length ≤ (writeAll blocks).length := by
  fun_induction writeAll blocks with
  | case1 => exact Nat.le_refl _
  | case2 block =>
    obtain ⟨type, body, -, hw, -⟩ := readContent_write block true (Nat.le_refl _)
    rw [hw, List.length_append, header, length_littleEndian, List.length_singleton]
    omega
  | case3 block blocks hne ih =>
    obtain ⟨type, body, -, hw, -⟩ := readContent_write block false (Nat.le_refl _)
    rw [List.length_append, hw, List.length_append, header, length_littleEndian, List.length_cons]
    omega

end ShapeCodec.Frame.Block
