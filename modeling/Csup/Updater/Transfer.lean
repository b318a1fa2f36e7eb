import Csup.Fattr.Inside
import Csup.Stream.Getln
import Csup.Updater.Commands

/-!
# Files that are sent as they are

The loops of `updater_addfile` and `updater_append_file`, on the stream itself: the requests
to `stream_read`, and the line that is read behind the data. An `off_t` has 64 bits, and a
difference of two wraps around.

`transfers_exact_iff`: the requests fit the buffer, and the announced bytes are taken and no
others, just when their number is not negative and can be represented. Then a transfer that
gets past its data is the one of `readBytes` (`readBytes_of_past`).
-/

namespace Csup.Updater.Transfer

open Csup.Attrs (Ids fattrDecode)
open Csup.Stream (Reader Got Returns IsLine Answers streamRead streamGetln streamRead_spec
  streamGetln_spec refill_spec)

/-! ## The functions -/

/-- `BUFSIZE` -/
def bufsize : Nat := 4096

/-- What else the functions do, on a world `W`; the Boolean says that it went well. -/
structure Host (W : Type) where
  mkdirhier : W → Bool × W
  /-- `stream_open_file` of the temporary file -/
  openTemp : W → Bool × W
  /-- the file that is there, copied -/
  copyDest : W → Bool × W
  write : List Byte → W → Bool × W

/-- How a transfer ends: with an error, or with the stream `r` past the data and the line that
is read then. `fault` is an access outside the buffer of the stream. -/
inductive Outcome
  | error (e : Err)
  | past (r : Reader) (line : Option Got) (r' : Reader)
  | fault
  | more

/-- `BUFSIZE > remains ? remains : BUFSIZE`, as a `size_t` -/
def request (remains : BitVec 64) : Nat :=
  if remains.toInt < bufsize then remains.toNat else bufsize

variable {W : Type} (sched : Nat → Nat) (host : Host W)

def nextLine (r : Reader) : Outcome :=
  match streamGetln sched false r with
  | none => .fault
  | some (line, r') => .past r line r'

/-- The loop: the sizes that are asked for, and how it ends. -/
def copyLoop : Nat → BitVec 64 → Reader → W → List Nat × Outcome
  | 0, _, _, _ => ([], .more)
  | fuel + 1, remains, r, w =>
    let size := request remains
    let (sizes, out) :=
      match streamRead sched size r with
      | none => ([], .fault)
      | some (none, _) => ([], .error .proto)
      | some (some nread, r) =>
        let remains := remains - BitVec.ofNat 64 nread.restored.length
        match host.write nread.restored w with
        | (false, _) => ([], .error .msg)
        | (true, w) =>
          if 0 < remains.toInt then copyLoop fuel remains r w else ([], nextLine sched r)
    (size :: sizes, out)

/-- The loop, with as many rounds as it may take. -/
def copyData (remains : BitVec 64) (r : Reader) (w : W) : List Nat × Outcome :=
  copyLoop sched host (remains.toNat + 1) remains r w

/-- `updater_addfile` up to the line behind the data -/
def updaterAddfile (fa : Attrs.Fattr) (r : Reader) (w : W) : List Nat × Outcome :=
  match host.mkdirhier w with
  | (false, _) => ([], .error .proto)
  | (true, w) =>
    match host.openTemp w with
    | (false, _) => ([], .error .msg)
    | (true, w) => copyData sched host fa.size r w

/-- `updater_append_file` up to the line behind the data -/
def updaterAppendFile (fa : Attrs.Fattr) (pos : BitVec 64) (r : Reader) (w : W) : List Nat × Outcome :=
  match host.openTemp w with
  | (false, _) => ([], .error .msg)
  | (true, w) =>
    match host.copyDest w with
    | (false, _) => ([], .error .msg)
    | (true, w) => copyData sched host (fa.size - pos) r w

/-! ## What is wanted -/

/-- The requests fit the buffer; and past the data, `n` bytes were taken from the stream and the
line that is read is the next one. -/
def Exact (n : Int) (r : Reader) (x : List Nat × Outcome) : Prop :=
  (∀ size ∈ x.1, size ≤ bufsize) ∧
    match x.2 with
    | .error _ => True
    | .past r' line r'' => (∃ data, r.rest = data ++ r'.rest ∧ data.length = n) ∧
        Returns r' line r'' ∧ ∀ g ∈ line, IsLine g r''
    | .fault => False
    | .more => False

/-- Whatever the stream has, however it arrives, and whatever else goes wrong. -/
def AddfileExact (fa : Attrs.Fattr) : Prop :=
  ∀ (W : Type) (sched : Nat → Nat) (host : Host W) (r : Reader) (w : W), r.Ok →
    Exact fa.size.toInt r (updaterAddfile sched host fa r w)

def AppendExact (fa : Attrs.Fattr) (pos : BitVec 64) : Prop :=
  ∀ (W : Type) (sched : Nat → Nat) (host : Host W) (r : Reader) (w : W), r.Ok →
    Exact (fa.size.toInt - pos.toInt) r (updaterAppendFile sched host fa pos r w)

/-! ## A round -/

variable {sched} {host} {remains : BitVec 64} {r : Reader}

theorem toNat_of_nonneg (h : 0 ≤ remains.toInt) : (remains.toNat : Int) = remains.toInt := by
  rw [BitVec.toInt_eq_toNat_cond] at h ⊢
  split at h <;> omega

theorem request_le (h : 0 ≤ remains.toInt) :
    request remains ≤ bufsize ∧ request remains ≤ remains.toNat ∧
      (0 < remains.toNat → 0 < request remains) := by
  have hn := toNat_of_nonneg h
  unfold request bufsize
  split <;> omega

theorem request_of_neg (h : remains.toInt < 0) : bufsize < request remains := by
  rw [request, if_pos (by unfold bufsize; omega), bufsize]
  rw [BitVec.toInt_eq_toNat_cond] at h
  split at h <;> omega

theorem toInt_sub (h : 0 ≤ remains.toInt) {n : Nat} (hn : n ≤ remains.toNat) :
    (remains - BitVec.ofNat 64 n).toInt = remains.toInt - n := by
  have hnat := toNat_of_nonneg h
  have hlow := BitVec.toInt_lt (x := remains)
  have hsmall : n % 2 ^ 64 = n := Nat.mod_eq_of_lt (by omega)
  have hsub : (remains - BitVec.ofNat 64 n).toNat = remains.toNat - n := by
    rw [BitVec.toNat_sub, BitVec.toNat_ofNat, hsmall]
    omega
  rw [BitVec.toInt_eq_toNat_cond, hsub, if_pos (by omega)]
  omega

/-- Something is read where something is asked for. -/
theorem streamRead_pos (hr : r.Ok) {size : Nat} (hsize : 0 < size) {g : Got} {r' : Reader}
    (h : streamRead sched size r = some (some g, r')) : 0 < g.restored.length := by
  obtain ⟨n, q, hfill, hok, -, -, hpos⟩ := refill_spec sched hr
  unfold streamRead at h
  rw [hfill, Option.bind_some] at h
  split at h
  · cases h
  · rename_i hn
    have hcount := hpos hn
    obtain ⟨bytes, hload, h⟩ := Option.bind_eq_some_iff.mp h
    obtain ⟨buf, -, h⟩ := Option.map_eq_some_iff.mp h
    obtain ⟨hg, -⟩ := Prod.mk.inj h
    obtain rfl := Option.some.inj hg
    have hlen : bytes.length = min size q.buf.count := by
      unfold Stream.Buf.load at hload
      split at hload
      · rw [← Option.some.inj hload, Framework.length_slice]
      · cases hload
    show 0 < bytes.length
    omega

/-- What is read is in order, and no more than what is asked for. -/
theorem streamRead_block (sched : Nat → Nat) (hr : r.Ok) (size : Nat) :
    (r.rest = [] ∧ ∃ r', streamRead sched size r = some (none, r')) ∨
      r.rest ≠ [] ∧ ∃ g r', streamRead sched size r = some (some g, r') ∧ r'.Ok ∧
        r.rest = g.restored ++ r'.rest ∧ g.restored.length ≤ size := by
  obtain ⟨got, r', hread, hret, hans, hnil⟩ := streamRead_spec sched size hr
  cases got with
  | none =>
    refine .inl ⟨?_, r', hread⟩
    rw [hret.rest, hret.none rfl]
    rfl
  | some g =>
    refine .inr ⟨fun h => absurd (hnil h) (by simp), g, r', hread, hret.ok, hret.rest, ?_⟩
    cases g with
    | block bytes => exact hans
    | line bytes => cases hans
    | string text cut => cases hans

/-! ## The loop -/

theorem nextLine_past (sched : Nat → Nat) (hr : r.Ok) : ∃ line r', nextLine sched r = .past r line r' ∧
    Returns r line r' ∧ ∀ g ∈ line, IsLine g r' := by
  obtain ⟨line, r', hrun, hret, hline, -⟩ := streamGetln_spec sched false hr
  exact ⟨line, r', by rw [nextLine, hrun], hret, hline⟩

theorem exact_error (n : Int) (r : Reader) (e : Err) : Exact n r ([], .error e) :=
  ⟨nofun, trivial⟩

/-- One round in front of the others. -/
theorem Exact.cons {n : Int} {r' : Reader} {x : List Nat × Outcome} (h : Exact n r' x)
    {data : List Byte} (hrest : r.rest = data ++ r'.rest) {size : Nat} (hsize : size ≤ bufsize) :
    Exact (n + data.length) r (size :: x.1, x.2) := by
  obtain ⟨hsizes, hout⟩ := h
  refine ⟨List.forall_mem_cons.mpr ⟨hsize, hsizes⟩, ?_⟩
  rcases x with ⟨sizes, e | ⟨q, line, q'⟩ | - | -⟩
  · trivial
  · obtain ⟨⟨more, hmore, hlen⟩, hret, hline⟩ := hout
    refine ⟨⟨data ++ more, ?_, ?_⟩, hret, hline⟩
    · rw [hrest, hmore, List.append_assoc]
    · rw [List.length_append, ← hlen, Int.natCast_add, Int.add_comm]
  · exact hout
  · exact hout

/-- What the loop comes to: besides, it gets past its data where these are there and writing
does not fail. -/
def Copies (remains : BitVec 64) (host : Host W) (r : Reader) (x : List Nat × Outcome) : Prop :=
  Exact remains.toInt r x ∧
    ((∀ data w, (host.write data w).1 = true) → r.rest ≠ [] → remains.toNat ≤ r.rest.length →
      ∃ r' line r'', x.2 = .past r' line r'')

/-- The loop, by induction on the rounds: each takes a byte, except a first one for none. -/
theorem copyLoop_spec {fuel : Nat} {w : W} (hr : r.Ok) (h : 0 ≤ remains.toInt)
    (hfuel : remains.toNat < fuel) :
    Copies remains host r (copyLoop sched host fuel remains r w) := by
  induction fuel generalizing remains r w with
  | zero => exact absurd hfuel (Nat.not_lt_zero _)
  | succ fuel ih =>
    obtain ⟨hbuf, hle, hpos⟩ := request_le h
    have hnat := toNat_of_nonneg h
    rw [copyLoop]
    rcases streamRead_block sched hr (request remains) with
      ⟨hnil, r', hread⟩ | ⟨-, g, r', hread, hr', hrest, hlen⟩
    · simp only [hread]
      exact ⟨⟨by simpa using hbuf, trivial⟩, fun _ hne => absurd hnil hne⟩
    · have hsub := toInt_sub h (hlen.trans hle)
      simp only [hread]
      rcases hwrite : host.write g.restored w with ⟨ok, w'⟩
      cases ok with
      | false =>
        refine ⟨⟨by simpa using hbuf, trivial⟩, fun hall => ?_⟩
        have := hall g.restored w
        rw [hwrite] at this
        cases this
      | true =>
        by_cases hmore : 0 < (remains - BitVec.ofNat 64 g.restored.length).toInt
        · simp only [if_pos hmore]
          have hone := streamRead_pos hr (hpos (by omega)) hread
          have hnat' := toNat_of_nonneg hmore.le
          obtain ⟨hexact, hpast⟩ := ih (w := w') hr' hmore.le (by omega)
          refine ⟨?_, fun hall _ hrem => hpast hall (fun hnil => ?_) ?_⟩
          · have := hexact.cons hrest hbuf
            rwa [hsub, Int.sub_add_cancel] at this
          · rw [hrest, hnil, List.append_nil] at hrem
            omega
          · rw [hrest, List.length_append] at hrem
            omega
        · simp only [if_neg hmore]
          obtain ⟨line, r'', hnext, hret, hline⟩ := nextLine_past sched hr'
          rw [hnext]
          refine ⟨⟨by simpa using hbuf, ⟨g.restored, hrest, ?_⟩, hret, hline⟩,
            fun _ _ _ => ⟨_, _, _, rfl⟩⟩
          omega

theorem copyData_spec {w : W} (hr : r.Ok) (h : 0 ≤ remains.toInt) :
    Copies remains host r (copyData sched host remains r w) :=
  copyLoop_spec hr h (Nat.lt_succ_self _)

/-- Past its data, a transfer has read what the reader of the updater reads. -/
theorem readBytes_of_past {w : W} (hr : r.Ok) (h : 0 ≤ remains.toInt) {r' r'' : Reader}
    {line : Option Got} (hpast : (copyData sched host remains r w).2 = .past r' line r'') :
    ∃ data, readBytes remains.toInt r.rest = .ok (data, r'.rest) := by
  have hne : r.rest ≠ [] := by
    rcases streamRead_block sched hr (request remains) with ⟨-, q, hread⟩ | ⟨hne, -⟩
    · rw [copyData, copyLoop, hread] at hpast
      cases hpast
    · exact hne
  have hcopies : Copies remains host r (copyData sched host remains r w) := copyData_spec hr h
  obtain ⟨⟨-, hout⟩, -⟩ := hcopies
  rw [hpast] at hout
  obtain ⟨⟨data, hdata, hlen⟩, -⟩ := hout
  refine ⟨data, ?_⟩
  have hnat : remains.toInt.toNat = data.length := by omega
  rw [readBytes, if_neg hne, if_neg (by omega), hnat, hdata, if_neg (by simp), List.take_left,
    List.drop_left]

/-- A negative number of bytes is a large one to `stream_read`. -/
theorem not_exact_of_neg {n : Int} {w : W} (h : remains.toInt < 0) :
    ¬Exact n r (copyData sched host remains r w) := by
  rintro ⟨hsizes, -⟩
  have hfirst : request remains ∈ (copyData sched host remains r w).1 := by
    rw [copyData, copyLoop]
    exact List.mem_cons_self
  exact absurd (hsizes _ hfirst) (Nat.not_le.mpr (request_of_neg h))

/-- A host on which all goes well. -/
def willing : Host Unit where
  mkdirhier w := (true, w)
  openTemp w := (true, w)
  copyDest w := (true, w)
  write _ w := (true, w)

/-- Where the loop takes `n` bytes from each stream, the number it begins with is `n`. -/
theorem remains_of_exact {n : Int}
    (h : ∀ r : Reader, r.Ok → Exact n r (copyData id willing remains r ())) :
    0 ≤ n ∧ remains.toInt = n := by
  have hneg : 0 ≤ remains.toInt := by
    by_contra hneg
    exact not_exact_of_neg (by omega) (h _ (Stream.ok_new []))
  -- a stream with bytes enough
  obtain ⟨r, hr, hlen⟩ : ∃ r : Reader, r.Ok ∧ r.rest.length = remains.toNat + 1 :=
    ⟨.new (List.replicate (remains.toNat + 1) 0), Stream.ok_new _, List.length_replicate⟩
  obtain ⟨-, hout⟩ := h r hr
  have hcopies : Copies remains willing r (copyData id willing remains r ()) := copyData_spec hr hneg
  obtain ⟨⟨-, hout'⟩, hpast⟩ := hcopies
  obtain ⟨r', line, r'', heq⟩ := hpast (fun _ _ => rfl) (fun hnil => by simp [hnil] at hlen)
    (by omega)
  rw [heq] at hout hout'
  obtain ⟨⟨data, hdata, hn⟩, -⟩ := hout
  obtain ⟨⟨data', hdata', hn'⟩, -⟩ := hout'
  have hsame := congrArg List.length (hdata.symm.trans hdata')
  simp only [List.length_append] at hsame
  omega

/-! ## The functions -/

theorem addfileExact_iff (fa : Attrs.Fattr) : AddfileExact fa ↔ 0 ≤ fa.size.toInt := by
  constructor
  · intro h
    exact (remains_of_exact (h Unit id willing · ())).1
  · intro h W sched host r w hr
    unfold updaterAddfile
    split
    · exact exact_error _ _ _
    split
    · exact exact_error _ _ _
    · exact (copyData_spec hr h).1

theorem appendExact_iff (fa : Attrs.Fattr) (pos : BitVec 64) : AppendExact fa pos ↔
    0 ≤ fa.size.toInt - pos.toInt ∧ fa.size.toInt - pos.toInt < 2 ^ 63 := by
  have hsub : (fa.size - pos).toInt = (fa.size.toInt - pos.toInt).bmod (2 ^ 64) :=
    BitVec.toInt_sub ..
  have hlt := BitVec.toInt_lt (x := fa.size - pos)
  constructor
  · intro h
    obtain ⟨hn, heq⟩ := remains_of_exact (h Unit id willing · ())
    omega
  · rintro ⟨h, hlt⟩ W sched host r w hr
    have heq : (fa.size - pos).toInt = fa.size.toInt - pos.toInt := by
      rw [hsub, Int.bmod_def]
      omega
    unfold updaterAppendFile
    split
    · exact exact_error _ _ _
    split
    · exact exact_error _ _ _
    · rw [← heq] at h ⊢
      exact (copyData_spec hr h).1

/-- The transfers take exactly the announced bytes, on every stream and whatever else goes
wrong, just when the number of these is not negative and is one of an `off_t`. -/
theorem transfers_exact_iff (fa : Attrs.Fattr) (pos : BitVec 64) :
    (AddfileExact fa ↔ 0 ≤ fa.size.toInt) ∧
      (AppendExact fa pos ↔
        0 ≤ fa.size.toInt - pos.toInt ∧ fa.size.toInt - pos.toInt < 2 ^ 63) :=
  ⟨addfileExact_iff fa, appendExact_iff fa pos⟩

/-- The announced size may be -1, and a position may be behind the size. -/
theorem not_exact : ¬ ∀ (fflags : Bool) (ids : Ids) (attr pos : List Byte) (fa : Attrs.Fattr),
    fattrDecode fflags ids attr = .ok fa →
      AddfileExact fa ∧ AppendExact fa (BitVec.ofInt 64 (strtol pos).1) := by
  intro h
  -- the attributes of a file of -1 bytes
  obtain ⟨fa, hdecode, hsize⟩ : ∃ fa, fattrDecode false Attrs.noIds
      (bytes "1#51#12#-1".toList) = .ok fa ∧ fa.size.toInt = -1 := ⟨_, rfl, by decide⟩
  have := (addfileExact_iff fa).mp (h _ _ _ [] fa hdecode).1
  omega

end Csup.Updater.Transfer
