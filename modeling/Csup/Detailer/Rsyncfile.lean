import Csup.Proto.Codec

/-!
# The block details of a file: `rsyncfile.c`

`rsync_open` chooses a block size for a file, and `detailer_send_rsync` sends a
line for each block, with its rolling checksum and its digest. The file is the
list of its bytes, `blockptr` an offset into it; a `size_t` is reduced to 64 bits
where it can wrap around. The digest is a parameter.

* `chooseblocksize_eq`: what is returned is the least remainder, not the size that
  leaves it, and the loop is not entered for a file of less than 5900 bytes;
* `sendBlocks_iff`: the loop over the blocks ends if and only if that is not zero;
* `not_detailed`: so no file gets a size of its search region.
-/

namespace Csup.Detailer

open Csup.Proto

def minBlockSize : Nat := 1024

def maxBlockSize : Nat := 16 * 1024

/-- `RECEIVEBUFFERSIZE / BLOCKINFOSIZE` -/
def maxBlocks : Nat := 15 * 1024 / 26

def searchRegion : Nat := 10

/-- `struct rsyncfile` -/
structure Rsyncfile where
  buf : List Byte
  blocksize : Nat
  blockptr : Nat
  blocknum : Nat
  blockmd5 : List Byte
  rsum : BitVec 32

/-! ## The block size -/

/-- A `size_t`. -/
def sizet (i : Int) : Nat := (i % 2 ^ 64).toNat

/-- The sizes that are searched: from the first to the second. -/
def searched (fsize : Nat) : Nat × Nat :=
  let blocksize := fsize / maxBlocks
  let losearch := sizet (blocksize - searchRegion)
  let hisearch := sizet (blocksize + searchRegion)
  if losearch < minBlockSize then (minBlockSize, minBlockSize + 2 * searchRegion)
  else if maxBlockSize < hisearch then (maxBlockSize - 2 * searchRegion, maxBlockSize)
  else (losearch, hisearch)

/-- The loop over `n` sizes from `bs` on, with `bestrem` and `blocksize`. -/
def search (fsize : Nat) : Nat → Nat → Nat × Nat → Nat × Nat
  | 0, _, best => best
  | n + 1, bs, (bestrem, blocksize) =>
    let rem := fsize % bs
    search fsize n (bs + 1) (if rem < bestrem then (rem, bs) else (bestrem, blocksize))

/-- `rsync_chooseblocksize` -/
def rsyncChooseblocksize (fsize : Nat) : Nat :=
  let (losearch, hisearch) := searched fsize
  (search fsize (hisearch + 1 - losearch) losearch (maxBlockSize, fsize / maxBlocks)).1

/-- `rsync_open` of a file that can be opened. -/
def rsyncOpen (buf : List Byte) (blocksize : Nat) : Rsyncfile where
  buf := buf
  blocksize := if blocksize = 0 then rsyncChooseblocksize buf.length else blocksize
  blockptr := 0
  blocknum := 0
  blockmd5 := []
  rsum := 0

/-! ## The blocks -/

/-- `CHAR_OFFSET` -/
def charOffset : BitVec 32 := 3

/-- `rsync_rollsum`; a `char` has a sign. -/
def rsyncRollsum (block : List Byte) : BitVec 32 :=
  let (a, b) := block.foldl (fun (a, b) c =>
    let a := a + (c.toBitVec.signExtend 32 + charOffset)
    (a, b + a)) ((0, 0) : BitVec 32 × BitVec 32)
  b <<< 16 ||| a

variable (md5 : List Byte → List Byte)

/-- `rsync_nextblock`; `none` where it returns 0. -/
def rsyncNextblock (rf : Rsyncfile) : Option Rsyncfile :=
  if rf.buf.length ≤ rf.blockptr then none
  else
    let blocksize := min (rf.buf.length - rf.blockptr) rf.blocksize
    let block := (rf.buf.drop rf.blockptr).take blocksize
    some { rf with
      blockmd5 := md5 block
      rsum := rsyncRollsum block
      blocknum := rf.blocknum + 1
      blockptr := rf.blockptr + blocksize }

/-- The line of a block: `"%s %s\n"` of the checksum in hexadecimal and the digest. -/
def blockLine (rsum : BitVec 32) (blockmd5 : List Byte) : List Byte :=
  protoEscape (printRadix 16 rsum.toNat) ++ 32 :: protoEscape blockmd5 ++ [nl]

/-- The loop over `rsync_nextblock`: the lines, when it ends within so many calls. -/
def sendBlocks : Nat → Rsyncfile → Option (List (List Byte))
  | 0, _ => none
  | calls + 1, rf =>
    match rsyncNextblock md5 rf with
    | none => some []
    | some rf => (sendBlocks calls rf).map (blockLine rf.rsum rf.blockmd5 :: ·)

/-- `detailer_send_rsync`, when the file can be opened and the writes succeed. -/
def detailerSendRsync (calls : Nat) (name content : List Byte) : Option (List Byte) := do
  let rf := rsyncOpen content 0
  let first ← protoPrintf (bytes "r %s %O %z\n".toList)
    [.str name, .off content.length, .size rf.blocksize]
  let lines ← sendBlocks md5 calls rf
  return first ++ lines.flatten ++ [46, nl]

/-! ## What they are for -/

/-- The sizes around the quotient, shifted into the allowed range. -/
def InRegion (fsize bs : Nat) : Prop :=
  let blocksize := fsize / maxBlocks
  if blocksize < minBlockSize + searchRegion then
    minBlockSize ≤ bs ∧ bs ≤ minBlockSize + 2 * searchRegion
  else if maxBlockSize < blocksize + searchRegion then
    maxBlockSize - 2 * searchRegion ≤ bs ∧ bs ≤ maxBlockSize
  else blocksize - searchRegion ≤ bs ∧ bs ≤ blocksize + searchRegion

instance (fsize bs : Nat) : Decidable (InRegion fsize bs) := by
  unfold InRegion
  infer_instance

/-- The blocks that are described are the file, cut in sizes of `bs`. -/
structure Cuts (bs : Nat) (content : List Byte) (blocks : List (List Byte)) : Prop where
  flatten : blocks.flatten = content
  full : ∀ b ∈ blocks.dropLast, b.length = bs
  last : ∀ b ∈ blocks, 0 < b.length ∧ b.length ≤ bs

/-- The details of a file. -/
structure Detailed (content : List Byte) : Prop where
  size : minBlockSize ≤ (rsyncOpen content 0).blocksize ∧
    (rsyncOpen content 0).blocksize ≤ maxBlockSize
  best : InRegion content.length (rsyncOpen content 0).blocksize ∧
    ∀ bs, InRegion content.length bs →
      content.length % (rsyncOpen content 0).blocksize ≤ content.length % bs
  covers : ∃ calls blocks, sendBlocks md5 calls (rsyncOpen content 0) =
      some (blocks.map fun b => blockLine (rsyncRollsum b) (md5 b)) ∧
    Cuts (rsyncOpen content 0).blocksize content blocks

/-! ## The search -/

/-- The loop keeps the least remainder. -/
theorem search_eq (fsize n bs : Nat) (best : Nat × Nat) :
    (∀ s, bs ≤ s → s < bs + n → (search fsize n bs best).1 ≤ fsize % s) ∧
    (search fsize n bs best).1 ≤ best.1 ∧
    ((search fsize n bs best).1 = best.1 ∨
      ∃ s, bs ≤ s ∧ s < bs + n ∧ (search fsize n bs best).1 = fsize % s) := by
  induction n generalizing bs best with
  | zero => exact ⟨fun s _ _ => by omega, Nat.le_refl _, .inl rfl⟩
  | succ n ih =>
    obtain ⟨bestrem, blocksize⟩ := best
    obtain ⟨hall, hle, hatt⟩ :=
      ih (bs + 1) (if fsize % bs < bestrem then (fsize % bs, bs) else (bestrem, blocksize))
    rw [search]
    by_cases hlt : fsize % bs < bestrem
    · simp only [if_pos hlt] at hall hle hatt ⊢
      refine ⟨fun s h1 h2 => ?_, Nat.le_trans hle (Nat.le_of_lt hlt), .inr ?_⟩
      · rcases Nat.eq_or_lt_of_le h1 with rfl | h1
        · exact hle
        · exact hall s h1 (by omega)
      · rcases hatt with hatt | ⟨s, h1, h2, hs⟩
        · exact ⟨bs, Nat.le_refl _, by omega, hatt⟩
        · exact ⟨s, by omega, by omega, hs⟩
    · simp only [if_neg hlt] at hall hle hatt ⊢
      refine ⟨fun s h1 h2 => ?_, hle, ?_⟩
      · rcases Nat.eq_or_lt_of_le h1 with rfl | h1
        · exact Nat.le_trans hle (by omega)
        · exact hall s h1 (by omega)
      · rcases hatt with hatt | ⟨s, h1, h2, hs⟩
        · exact .inl hatt
        · exact .inr ⟨s, by omega, by omega, hs⟩

variable {fsize : Nat}

theorem sizet_sub_small {q : Nat} (h : q < 10) :
    sizet ((q : Int) - (searchRegion : Nat)) = 2 ^ 64 - 10 + q := by
  show (((q : Int) - (10 : Nat)) % 2 ^ 64).toNat = _
  omega

theorem sizet_sub {q : Nat} (h : 10 ≤ q) (hmax : q < 2 ^ 63) :
    sizet ((q : Int) - (searchRegion : Nat)) = q - 10 := by
  show (((q : Int) - (10 : Nat)) % 2 ^ 64).toNat = _
  omega

theorem sizet_add {q : Nat} (hmax : q < 2 ^ 63) :
    sizet ((q : Int) + (searchRegion : Nat)) = q + 10 := by
  show (((q : Int) + (10 : Nat)) % 2 ^ 64).toNat = _
  omega

/-- Below ten blocks the lower end wraps around, and no size is searched. -/
theorem searched_small (h : fsize < 5900) : (searched fsize).2 + 1 ≤ (searched fsize).1 := by
  have hq : fsize / maxBlocks < 10 := by
    show fsize / 590 < 10
    omega
  rw [searched]
  generalize fsize / maxBlocks = q at hq
  simp only [sizet_sub_small hq, sizet_add (q := q) (by omega)]
  rw [if_neg (by show ¬2 ^ 64 - 10 + q < 1024; omega), if_neg (by show ¬16384 < q + 10; omega)]
  simp only
  omega

theorem inRegion_iff (bs : Nat) : InRegion fsize bs ↔
    if fsize / maxBlocks < 1034 then 1024 ≤ bs ∧ bs ≤ 1044
    else if 16374 < fsize / maxBlocks then 16364 ≤ bs ∧ bs ≤ 16384
    else fsize / maxBlocks - 10 ≤ bs ∧ bs ≤ fsize / maxBlocks + 10 := by
  show (if fsize / maxBlocks < 1034 then 1024 ≤ bs ∧ bs ≤ 1044
    else if 16384 < fsize / maxBlocks + 10 then 16364 ≤ bs ∧ bs ≤ 16384
    else fsize / maxBlocks - 10 ≤ bs ∧ bs ≤ fsize / maxBlocks + 10) ↔ _
  by_cases h1 : fsize / maxBlocks < 1034
  · rw [if_pos h1, if_pos h1]
  · rw [if_neg h1, if_neg h1]
    by_cases h2 : 16374 < fsize / maxBlocks
    · rw [if_pos (by omega), if_pos h2]
    · rw [if_neg (by omega), if_neg h2]

/-- Otherwise the sizes are those of the region. -/
theorem searched_region (h : 5900 ≤ fsize) (hmax : fsize < 2 ^ 63) (bs : Nat) :
    (searched fsize).1 ≤ bs ∧ bs ≤ (searched fsize).2 ↔ InRegion fsize bs := by
  have hq : 10 ≤ fsize / maxBlocks := by
    show 10 ≤ fsize / 590
    omega
  have hq' : fsize / maxBlocks < 2 ^ 63 := by
    show fsize / 590 < 2 ^ 63
    omega
  rw [inRegion_iff, searched]
  simp only [sizet_sub hq hq', sizet_add hq']
  by_cases h1 : fsize / maxBlocks < 1034
  · rw [if_pos (by show _ < 1024; omega), if_pos h1]
    rfl
  · rw [if_neg (by show ¬_ < 1024; omega), if_neg h1]
    by_cases h2 : 16374 < fsize / maxBlocks
    · rw [if_pos (by show 16384 < _; omega), if_pos h2]
      rfl
    · rw [if_neg (by show ¬16384 < _; omega), if_neg h2]

theorem InRegion.bounds {bs : Nat} (h : InRegion fsize bs) :
    minBlockSize ≤ bs ∧ bs ≤ maxBlockSize := by
  show 1024 ≤ bs ∧ bs ≤ 16384
  rw [inRegion_iff] at h
  split at h
  · omega
  · split at h <;> omega

theorem exists_inRegion (fsize : Nat) : ∃ bs, InRegion fsize bs := by
  simp only [inRegion_iff]
  split
  · exact ⟨1024, by omega⟩
  · split
    · exact ⟨16384, by omega⟩
    · exact ⟨fsize / maxBlocks, by omega⟩

/-- What is chosen: 16384 for a short file, and the least remainder that a size of
the region leaves for any other. -/
theorem chooseblocksize_eq (hmax : fsize < 2 ^ 63) :
    fsize < 5900 ∧ rsyncChooseblocksize fsize = maxBlockSize ∨
    5900 ≤ fsize ∧ (∃ bs, InRegion fsize bs ∧ rsyncChooseblocksize fsize = fsize % bs) ∧
      ∀ bs, InRegion fsize bs → rsyncChooseblocksize fsize ≤ fsize % bs := by
  by_cases h : fsize < 5900
  · refine .inl ⟨h, ?_⟩
    have hnone := searched_small h
    simp only [rsyncChooseblocksize]
    rw [show (searched fsize).2 + 1 - (searched fsize).1 = 0 by omega, search]
  · refine .inr ⟨by omega, ?_⟩
    have hregion := searched_region (by omega) hmax
    obtain ⟨hall, -, hatt⟩ := search_eq fsize
      ((searched fsize).2 + 1 - (searched fsize).1) (searched fsize).1
      (maxBlockSize, fsize / maxBlocks)
    have hle : ∀ bs, InRegion fsize bs → rsyncChooseblocksize fsize ≤ fsize % bs := by
      intro bs hbs
      have hb := (hregion bs).mpr hbs
      exact hall bs hb.1 (by omega)
    refine ⟨?_, hle⟩
    rcases hatt with hatt | ⟨bs, h1, h2, hbs⟩
    · -- a remainder is less than its size, which is at most the first best one
      obtain ⟨bs, hbs⟩ := exists_inRegion fsize
      have hb := hbs.bounds
      have hlt := Nat.mod_lt fsize (show 0 < bs by simp only [minBlockSize] at hb; omega)
      have hbest : rsyncChooseblocksize fsize = maxBlockSize := hatt
      have := hle bs hbs
      omega
    · exact ⟨bs, (hregion bs).mp ⟨h1, by omega⟩, hbs⟩

/-- The size that is chosen is not one that was searched. -/
theorem not_inRegion_chosen (hmax : fsize < 2 ^ 63) :
    ¬InRegion fsize (rsyncChooseblocksize fsize) := by
  intro h
  rcases chooseblocksize_eq hmax with ⟨hlt, heq⟩ | ⟨-, -, hle⟩
  · rw [heq] at h
    have hq : fsize / maxBlocks < 1034 := by
      show fsize / 590 < 1034
      omega
    rw [inRegion_iff, if_pos hq] at h
    exact absurd h.2 (by decide)
  · have hpos := h.bounds.1
    have hself := hle _ h
    have hlt := Nat.mod_lt fsize (show 0 < rsyncChooseblocksize fsize by
      simp only [minBlockSize] at hpos
      omega)
    omega

/-! ## The loop over the blocks -/

variable {md5 : List Byte → List Byte}

theorem sendBlocks_zero {rf : Rsyncfile} (h0 : rf.blocksize = 0) (h : rf.blockptr < rf.buf.length)
    (calls : Nat) : sendBlocks md5 calls rf = none := by
  induction calls generalizing rf with
  | zero => rfl
  | succ calls ih =>
    have hptr : rf.blockptr + min (rf.buf.length - rf.blockptr) rf.blocksize = rf.blockptr := by
      rw [h0, Nat.min_zero, Nat.add_zero]
    rw [sendBlocks, rsyncNextblock, if_neg (by omega)]
    simp only [hptr]
    rw [ih (by exact h0) (by exact h)]
    rfl

/-- From an offset on, the rest of the file is cut. -/
theorem sendBlocks_pos {rf : Rsyncfile} (h0 : 0 < rf.blocksize) (calls : Nat)
    (hcalls : rf.buf.length - rf.blockptr < calls) :
    ∃ blocks, sendBlocks md5 calls rf =
        some (blocks.map fun b => blockLine (rsyncRollsum b) (md5 b)) ∧
      Cuts rf.blocksize (rf.buf.drop rf.blockptr) blocks := by
  induction calls generalizing rf with
  | zero => omega
  | succ calls ih =>
    rw [sendBlocks, rsyncNextblock]
    by_cases hend : rf.buf.length ≤ rf.blockptr
    · rw [if_pos hend]
      refine ⟨[], rfl, (List.drop_eq_nil_of_le hend).symm, ?_, ?_⟩
      · exact fun b hb => (List.not_mem_nil hb).elim
      · exact fun b hb => (List.not_mem_nil hb).elim
    · rw [if_neg hend]
      have hmin : 0 < min (rf.buf.length - rf.blockptr) rf.blocksize := by omega
      obtain ⟨blocks, hsend, hcuts⟩ := @ih { rf with
        blockmd5 := md5 ((rf.buf.drop rf.blockptr).take
          (min (rf.buf.length - rf.blockptr) rf.blocksize))
        rsum := rsyncRollsum ((rf.buf.drop rf.blockptr).take
          (min (rf.buf.length - rf.blockptr) rf.blocksize))
        blocknum := rf.blocknum + 1
        blockptr := rf.blockptr + min (rf.buf.length - rf.blockptr) rf.blocksize } h0
        (by simp only; omega)
      have hlen : ((rf.buf.drop rf.blockptr).take
          (min (rf.buf.length - rf.blockptr) rf.blocksize)).length =
          min (rf.buf.length - rf.blockptr) rf.blocksize := by
        rw [List.length_take, List.length_drop]
        omega
      refine ⟨(rf.buf.drop rf.blockptr).take
        (min (rf.buf.length - rf.blockptr) rf.blocksize) :: blocks, ?_, ?_, ?_, ?_⟩
      · simp only [hsend, Option.map_some, List.map_cons]
      · rw [List.flatten_cons, hcuts.flatten, ← List.drop_drop, List.take_append_drop]
      · intro b hb
        rcases blocks with - | ⟨b', blocks⟩
        · cases hb
        · rw [List.dropLast_cons_cons] at hb
          rcases List.mem_cons.mp hb with rfl | hb
          · -- something is left, so the block is a whole one
            have hflat := congrArg List.length hcuts.flatten
            have hb' := (hcuts.last b' List.mem_cons_self).1
            rw [List.flatten_cons, List.length_append, List.length_drop] at hflat
            simp only at hflat hb'
            rw [hlen]
            omega
          · exact hcuts.full b hb
      · intro b hb
        rcases List.mem_cons.mp hb with rfl | hb
        · rw [hlen]
          omega
        · exact hcuts.last b hb

/-- The loop ends, and has described the file, if and only if the block size is not
zero: if the file is short, or no size of the region divides its length. -/
theorem sendBlocks_iff {content : List Byte} (hne : content ≠ []) :
    (∃ calls blocks, sendBlocks md5 calls (rsyncOpen content 0) =
        some (blocks.map fun b => blockLine (rsyncRollsum b) (md5 b)) ∧
      Cuts (rsyncOpen content 0).blocksize content blocks) ↔
    rsyncChooseblocksize content.length ≠ 0 := by
  constructor
  · rintro ⟨calls, blocks, hsend, -⟩ h0
    have hnone := @sendBlocks_zero md5 (rsyncOpen content 0) h0 (List.length_pos_iff.mpr hne) calls
    rw [hnone] at hsend
    cases hsend
  · intro h0
    obtain ⟨blocks, hsend, hcuts⟩ := @sendBlocks_pos md5 (rsyncOpen content 0)
      (Nat.pos_of_ne_zero h0) (content.length + 1) (by simp [rsyncOpen])
    exact ⟨_, blocks, hsend, hcuts⟩

/-- The details of no file are as they are meant to be: the size is the remainder. -/
theorem not_detailed (md5 : List Byte → List Byte) {content : List Byte}
    (hmax : content.length < 2 ^ 63) : ¬Detailed md5 content :=
  fun h => not_inRegion_chosen hmax h.best.1

/-- A file with one byte. -/
theorem not_detailed_one : ¬Detailed id [97] := not_detailed id (by decide)

/-- A size of the region divides the length of the file: the size is zero, and the
loop over the blocks does not end. -/
theorem not_covered {content : List Byte} (h : content.length = 604160) :
    (rsyncOpen content 0).blocksize = 0 ∧
      ∀ calls, sendBlocks id calls (rsyncOpen content 0) = none := by
  have h0 : (rsyncOpen content 0).blocksize = 0 := by
    show rsyncChooseblocksize content.length = 0
    rw [h]
    decide +kernel
  refine ⟨h0, fun calls => sendBlocks_zero h0 ?_ calls⟩
  show 0 < content.length
  omega

/-- Not every file has its details, not even by a loop that ends. -/
theorem not_every_detailed : ¬ ∀ content : List Byte, content ≠ [] → content.length < 2 ^ 63 →
    Detailed id content := by
  intro h
  have hlen : (List.replicate 604160 (0 : Byte)).length = 604160 := List.length_replicate
  have hd := h (List.replicate 604160 0) (List.ne_nil_of_length_pos (by omega)) (by omega)
  obtain ⟨calls, blocks, hsend, -⟩ := hd.covers
  rw [(not_covered hlen).2 calls] at hsend
  cases hsend

end Csup.Detailer
