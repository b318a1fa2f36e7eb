import Csup.Fattr.Equal
import Csup.Fattr.Stat

/-!
# Attributes in checkout mode

Of a file that is checked out the type, the time, the size and the mode are recorded (`Kept`).
Without the owner and the group the set-id bits are not written, and a link count is faked as 1
when the attributes are read (`fattrDecode_kept`): what comes back is equal to what `stat` says
of the file just when it has one link and none of these bits (`fattrEqual_keptBack`).
-/

namespace Csup.Attrs

/-- `FA_FILETYPE|FA_MODTIME|FA_SIZE|FA_MODE` -/
def keptMask : Mask := maskOf [.filetype, .modtime, .size, .mode]

/-- What is kept of the attributes `sb` of a file. -/
structure Kept (sb : Stat) (fa : Fattr) : Prop where
  mask : fa.mask = keptMask
  type : fa.type = .file
  modtime : fa.modtime = sb.mtime
  size : fa.size = sb.size
  mode : fa.mode = sb.mode &&& 0o7777

theorem has_keptMask (a : Attr) :
    has keptMask a = decide (a = .filetype ∨ a = .modtime ∨ a = .size ∨ a = .mode) := by
  cases a <;> decide

/-! ## Kept -/

theorem fromstat_file (fflags : Bool) {sb : Stat} (h : sb.type = .file) :
    (fattrFromstat fflags sb).mask = fattrSupported fflags .file ∧
      (fattrFromstat fflags sb).type = .file ∧ (fattrFromstat fflags sb).modtime = sb.mtime ∧
      (fattrFromstat fflags sb).size = sb.size ∧
      (fattrFromstat fflags sb).mode = sb.mode &&& 0o7777 ∧
      (fattrFromstat fflags sb).linkcount = sb.nlink := by
  have hmask : Attr.filetype.bit ||| fattrSupported fflags .file = fattrSupported fflags .file := by
    cases fflags <;> decide
  have hhas (a : Attr) (ha : a = .modtime ∨ a = .size ∨ a = .mode ∨ a = .linkcount) :
      has (fattrSupported fflags .file) a = true := by
    rcases ha with rfl | rfl | rfl | rfl <;> cases fflags <;> decide
  simp only [fattrFromstat, h, hmask]
  exact ⟨trivial, trivial, if_pos (hhas _ (by simp)), if_pos (hhas _ (by simp)),
    if_pos (hhas _ (by simp)), if_pos (hhas _ (by simp))⟩

theorem kept_maskout {sb : Stat} {fa : Fattr} (hmask : fa.mask &&& ~~~faCoignore = keptMask)
    (htype : fa.type = .file) (hmodtime : fa.modtime = sb.mtime) (hsize : fa.size = sb.size)
    (hmode : fa.mode = sb.mode &&& 0o7777) : Kept sb (fattrMaskout fa faCoignore) :=
  ⟨hmask, htype, hmodtime, hsize, hmode⟩

theorem supported_coignore (fflags : Bool) :
    fattrSupported fflags .file &&& ~~~faCoignore = keptMask := by
  cases fflags <;> decide

/-- The attributes of a file on disk. -/
theorem kept_fromstat (fflags : Bool) {sb : Stat} (h : sb.type = .file) :
    Kept sb (fattrMaskout (fattrFromstat fflags sb) faCoignore) := by
  obtain ⟨hmask, htype, hmodtime, hsize, hmode, -⟩ := fromstat_file fflags h
  refine kept_maskout ?_ htype hmodtime hsize hmode
  rw [hmask, supported_coignore]

/-- The link count of another, and the inode that may be dropped, are not kept. -/
theorem kept_linkcount (fflags : Bool) {sb : Stat} (h : sb.type = .file) (source : Fattr) :
    Kept sb (fattrMaskout (dropInode (fattrOverride (fattrFromstat fflags sb) source
      (maskOf [.linkcount]))) faCoignore) := by
  obtain ⟨hmask, htype, hmodtime, hsize, hmode, -⟩ := fromstat_file fflags h
  have hno (a : Attr) (ha : a ≠ .linkcount) :
      has (maskOf [.linkcount] &&& source.mask) a = false := by
    have hl : has (maskOf [.linkcount]) a = decide (a = .linkcount) := by
      cases a <;> decide
    rw [has_and, hl, decide_eq_false ha, Bool.false_and]
  have hover : (fattrOverride (fattrFromstat fflags sb) source (maskOf [.linkcount])).mask &&&
      ~~~faCoignore = keptMask := by
    have hdrop : maskOf [.linkcount] &&& source.mask &&& ~~~faCoignore = 0 := by
      have hl : maskOf [.linkcount] &&& ~~~faCoignore = 0 := by decide
      rw [BitVec.and_comm (maskOf _), BitVec.and_assoc, hl]
      exact BitVec.and_zero
    show ((fattrFromstat fflags sb).mask ||| (maskOf [.linkcount] &&& source.mask)) &&& _ = _
    rw [BitVec.and_or_distrib_right, hdrop, hmask, supported_coignore]
    decide
  have hval : (fattrOverride (fattrFromstat fflags sb) source (maskOf [.linkcount])).type = .file ∧
      (fattrOverride (fattrFromstat fflags sb) source (maskOf [.linkcount])).modtime = sb.mtime ∧
      (fattrOverride (fattrFromstat fflags sb) source (maskOf [.linkcount])).size = sb.size ∧
      (fattrOverride (fattrFromstat fflags sb) source (maskOf [.linkcount])).mode =
        sb.mode &&& 0o7777 := by
    simp only [fattrOverride, hno _ (show Attr.filetype ≠ .linkcount by decide),
      hno _ (show Attr.modtime ≠ .linkcount by decide),
      hno _ (show Attr.size ≠ .linkcount by decide), hno _ (show Attr.mode ≠ .linkcount by decide), Bool.false_eq_true, if_false]
    exact ⟨htype, hmodtime, hsize, hmode⟩
  unfold dropInode
  split
  · exact kept_maskout hover hval.1 hval.2.1 hval.2.2.1 hval.2.2.2
  · refine kept_maskout ?_ hval.1 hval.2.1 hval.2.2.1 hval.2.2.2
    show _ &&& ~~~maskOf [.dev, .inode] &&& ~~~faCoignore = keptMask
    rw [BitVec.and_assoc, BitVec.and_comm (~~~maskOf _), ← BitVec.and_assoc, hover]
    decide

/-! ## What the server says of the mode -/

theorem forcheckout_mask (fflags : Bool) (rcsattr : Fattr) (umask : BitVec 32) :
    (fattrForcheckout fflags rcsattr umask).mask =
      if has rcsattr.mask .mode then maskOf [.filetype, .mode, .linkcount]
      else maskOf [.filetype, .linkcount] := by
  have hnew : (fattrNewOf fflags .file none).mask = maskOf [.filetype, .linkcount] := by
    cases fflags <;> decide
  unfold fattrForcheckout
  split
  · show (fattrNewOf fflags .file none).mask ||| Attr.mode.bit = _
    rw [hnew]
    decide
  · exact hnew

theorem forcheckout_type (fflags : Bool) (rcsattr : Fattr) (umask : BitVec 32) :
    (fattrForcheckout fflags rcsattr umask).type = .file ∧
      (fattrForcheckout fflags rcsattr umask).linkcount = 1 := by
  unfold fattrForcheckout
  split <;> cases fflags <;> exact ⟨rfl, rfl⟩

/-- The mode has permission bits only, and those of the umask are off. -/
theorem forcheckout_mode {fflags : Bool} {rcsattr : Fattr} (h : has rcsattr.mask .mode = true)
    (umask : BitVec 32) :
    (fattrForcheckout fflags rcsattr umask).mode &&& 0o777 =
        (fattrForcheckout fflags rcsattr umask).mode ∧
      (fattrForcheckout fflags rcsattr umask).mode &&& ~~~umask =
        (fattrForcheckout fflags rcsattr umask).mode := by
  have hperm : (if rcsattr.mode &&& 0o111 ≠ 0 then 0o777 else 0o666 : BitVec 32) &&& 0o777 =
      if rcsattr.mode &&& 0o111 ≠ 0 then 0o777 else 0o666 := by
    split <;> decide
  simp only [fattrForcheckout, h, if_true]
  constructor
  · rw [BitVec.and_assoc, BitVec.and_comm (~~~umask), ← BitVec.and_assoc, hperm]
  · rw [BitVec.and_assoc, BitVec.and_self]

theorem has_forcheckout (fflags : Bool) (rcsattr : Fattr) (umask : BitVec 32) (a : Attr) :
    has (fattrForcheckout fflags rcsattr umask).mask a =
      (decide (a = .filetype ∨ a = .linkcount) ||
        (decide (a = .mode) && has rcsattr.mask .mode)) := by
  rw [forcheckout_mask]
  cases has rcsattr.mask .mode <;> cases a <;> decide

/-- A file with what the server says of its mode. -/
def asServer (fflags : Bool) (sb : Stat) (rcsattr : Fattr) (umask : BitVec 32) : Fattr :=
  fattrOverride (fattrFromstat fflags sb) (fattrForcheckout fflags rcsattr umask) faMask

/-- Where that is equal to what the file has already, it is kept. -/
theorem kept_asServer {fflags : Bool} {sb : Stat} {rcsattr : Fattr} {umask : BitVec 32}
    (h : sb.type = .file)
    (heq : fattrEqual (asServer fflags sb rcsattr umask) (fattrFromstat fflags sb) = true) :
    Kept sb (fattrMaskout (asServer fflags sb rcsattr umask) faCoignore) := by
  obtain ⟨hmask, htype, hmodtime, hsize, hmode, -⟩ := fromstat_file fflags h
  have hno (a : Attr) (ha : a = .modtime ∨ a = .size) :
      has (faMask &&& (fattrForcheckout fflags rcsattr umask).mask) a = false := by
    rw [has_and, has_forcheckout]
    rcases ha with rfl | rfl <;> simp
  refine kept_maskout ?_ ?_ ?_ ?_ ?_
  · show ((fattrFromstat fflags sb).mask ||| (faMask &&& _)) &&& _ = _
    rw [BitVec.and_or_distrib_right, hmask, supported_coignore, forcheckout_mask]
    split <;> decide
  · show (if _ then _ else _) = FileType.file
    rw [(forcheckout_type fflags rcsattr umask).1, htype, ite_self]
  · show (if _ then _ else _) = sb.mtime
    rw [hno _ (.inl rfl), if_neg (by decide), hmodtime]
  · show (if _ then _ else _) = sb.size
    rw [hno _ (.inr rfl), if_neg (by decide), hsize]
  · rw [← hmode]
    have hhas : has (fattrFromstat fflags sb).mask .mode = true := by
      rw [hmask]
      cases fflags <;> decide
    refine ((fattrEqual_iff _ _).mp heq).2.2 .mode ?_ hhas
    show has ((fattrFromstat fflags sb).mask ||| _) .mode = true
    rw [has_or, hhas, Bool.true_or]

/-- Attributes with what the server says of the mode. -/
structure Moded (fflags : Bool) (umask : BitVec 32) (rcsattr fa : Fattr) : Prop where
  type : fa.type = .file
  filetype : has fa.mask .filetype = true
  mode : has rcsattr.mask .mode = true → has fa.mask .mode = true ∧
    fa.mode = (fattrForcheckout fflags rcsattr umask).mode

theorem moded_override (fflags : Bool) (umask : BitVec 32) (rcsattr fa : Fattr) :
    Moded fflags umask rcsattr
      (fattrOverride fa (fattrForcheckout fflags rcsattr umask) faMask) := by
  have hall (a : Attr) : has (faMask &&& (fattrForcheckout fflags rcsattr umask).mask) a =
      has (fattrForcheckout fflags rcsattr umask).mask a := by
    have hf : has faMask a = true := by cases a <;> decide
    rw [has_and, hf, Bool.true_and]
  have htype : has (fattrForcheckout fflags rcsattr umask).mask .filetype = true := by
    rw [has_forcheckout]
    rfl
  refine ⟨?_, ?_, fun h => ?_⟩
  · show (if _ then _ else _) = FileType.file
    rw [hall, htype, if_pos rfl, (forcheckout_type fflags rcsattr umask).1]
  · show has (_ ||| _) .filetype = true
    rw [has_or, hall, htype, Bool.or_true]
  · have hmode : has (fattrForcheckout fflags rcsattr umask).mask .mode = true := by
      rw [has_forcheckout, h]
      rfl
    refine ⟨?_, ?_⟩
    · show has (_ ||| _) .mode = true
      rw [has_or, hall, hmode, Bool.or_true]
    · show (if _ then _ else _) = _
      rw [hall, hmode, if_pos rfl]

section Moded

variable {fflags : Bool} {umask : BitVec 32} {rcsattr fa : Fattr}

theorem Moded.merge (h : Moded fflags umask rcsattr fa) (source : Fattr) :
    Moded fflags umask rcsattr (fattrMerge fa source) := by
  have hno {a : Attr} (ha : has fa.mask a = true) :
      has (source.mask &&& ~~~fa.mask &&& source.mask) a = false := by
    simp [ha]
  refine ⟨?_, ?_, fun hm => ?_⟩
  · show (if _ then _ else _) = FileType.file
    rw [hno h.filetype, if_neg (by decide), h.type]
  · rw [fattrMerge_mask, h.filetype, Bool.true_or]
  · obtain ⟨hhas, hmode⟩ := h.mode hm
    refine ⟨by rw [fattrMerge_mask, hhas, Bool.true_or], ?_⟩
    show (if _ then _ else _) = _
    rw [hno hhas, if_neg (by decide), hmode]

theorem Moded.maskout (h : Moded fflags umask rcsattr fa) {mask : Mask}
    (htype : has mask .filetype = false) (hmode : has mask .mode = false) :
    Moded fflags umask rcsattr (fattrMaskout fa mask) := by
  refine ⟨h.type, ?_, fun hm => ⟨?_, (h.mode hm).2⟩⟩
  · show has (fa.mask &&& ~~~mask) .filetype = true
    rw [has_and, has_not, h.filetype, htype]
    rfl
  · show has (fa.mask &&& ~~~mask) .mode = true
    rw [has_and, has_not, (h.mode hm).1, hmode]
    rfl

theorem Moded.umasked (h : Moded fflags umask rcsattr fa) :
    Moded fflags umask rcsattr (fattrUmask fa umask) := by
  unfold fattrUmask
  split
  · refine ⟨h.type, h.filetype, fun hm => ⟨(h.mode hm).1, ?_⟩⟩
    show fa.mode &&& ~~~umask = _
    rw [(h.mode hm).2, (forcheckout_mode hm umask).2]
  · exact h

end Moded

theorem perm_asServer {fflags : Bool} {sb : Stat} {rcsattr : Fattr} {umask : BitVec 32}
    (h : sb.type = .file)
    (heq : fattrEqual (asServer fflags sb rcsattr umask) (fattrFromstat fflags sb) = true)
    (hm : has rcsattr.mask .mode = true) :
    sb.mode &&& 0o777 = (fattrForcheckout fflags rcsattr umask).mode := by
  obtain ⟨hhas, hmode⟩ := (moded_override fflags umask rcsattr (fattrFromstat fflags sb)).mode hm
  have hdisk : has (fattrFromstat fflags sb).mask .mode = true := by
    rw [(fromstat_file fflags h).1]
    cases fflags <;> decide
  have hsame : (asServer fflags sb rcsattr umask).mode = (fattrFromstat fflags sb).mode :=
    ((fattrEqual_iff _ _).mp heq).2.2 .mode hhas hdisk
  obtain ⟨-, -, -, -, hsb, -⟩ := fromstat_file fflags h
  rw [← (forcheckout_mode hm umask).1, ← hmode]
  show _ = (asServer fflags sb rcsattr umask).mode &&& 0o777
  rw [hsame, hsb, BitVec.and_assoc]
  rfl

/-! ## Read back -/

/-- What is read of the attributes that are kept. -/
def keptBack (sb : Stat) : Fattr :=
  { fattrNew with
    mask := keptMask ||| Attr.linkcount.bit
    type := .file
    modtime := sb.mtime
    size := sb.size
    mode := sb.mode &&& 0o777
    linkcount := 1 }

theorem ofNode_kept (fflags : Bool) (ids : Ids) {sb : Stat} {fa : Fattr} (h : Kept sb fa) :
    OfNode fflags ids fa where
  type := .inl h.type
  filetype := by rw [h.mask]; decide
  supported := by
    rw [h.mask, h.type]
    cases fflags <;> decide
  owner ho := by simp [h.mask, has_keptMask] at ho
  group hg := by simp [h.mask, has_keptMask] at hg

theorem fattrDecode_kept (fflags : Bool) (ids : Ids) {sb : Stat} {fa : Fattr} (h : Kept sb fa) :
    fattrDecode fflags ids (fattrEncode ids fa none 0) = .ok (keptBack sb) := by
  have hwire : wireMask fa = keptMask := by
    rw [wireMask, h.mask, has_keptMask]
    rfl
  have hread : readMask fflags fa = keptMask ||| Attr.linkcount.bit := by
    rw [readMask, hwire, h.type, has_keptMask]
    cases fflags <;> rfl
  have hhas (a : Attr) := has_keptMask a
  have hlink : has (fattrSupported fflags .file) .linkcount = true := by
    cases fflags <;> decide
  have hmode : sb.mode &&& 0o7777 &&& modemask keptMask = sb.mode &&& 0o777 := by
    rw [BitVec.and_assoc]
    rfl
  rw [fattrDecode_fattrEncode (ofNode_kept fflags ids h), hwire, h.mask, h.type, hlink, hhas, hhas,
    hhas]
  show Except.ok (readBack fflags fa 0 1 0) = _
  simp only [readBack, hread, hwire, hhas, h.type, h.modtime, h.size, h.mode, hmode]
  rfl

theorem zero_notMem_printRadix {base : Nat} (hb : 1 < base) (hb16 : base ≤ 16) (n : Nat) :
    (0 : Byte) ∉ printRadix base n := by
  intro h
  obtain ⟨d, hd, h0⟩ := exists_digit hb h
  have hne : ∀ d < 16, (0 : Byte) ≠ digitByte d := by decide
  exact hne d (by omega) h0

theorem zero_notMem_printInt (i : Int) : (0 : Byte) ∉ printInt i := by
  have hradix (n : Nat) : (0 : Byte) ∉ printRadix 10 n :=
    zero_notMem_printRadix (by decide) (by decide) n
  cases i with
  | ofNat n => exact hradix n
  | negSucc n =>
    show 0 ∉ 45 :: printRadix 10 (n + 1)
    simpa using hradix (n + 1)

theorem zero_notMem_pieceIf (b : Bool) {val : List Byte} (h : b = true → 0 ∉ val) :
    (0 : Byte) ∉ pieceIf b val := by
  cases b with
  | false => exact List.not_mem_nil
  | true =>
    show 0 ∉ (printRadix 10 val.length).take 3 ++ 35 :: val
    rw [List.mem_append, not_or]
    have hlen : (0 : Byte) ∉ printRadix 10 val.length :=
      zero_notMem_printRadix (by decide) (by decide) _
    exact ⟨fun h0 => hlen (List.mem_of_mem_take h0), by simpa using h rfl⟩

/-- The text is a string. -/
theorem zero_notMem_kept (ids : Ids) {sb : Stat} {fa : Fattr} (h : Kept sb fa) :
    (0 : Byte) ∉ fattrEncode ids fa none 0 := by
  have hsent : sentMask ids fa none 0 = keptMask := by
    rw [sentMask_eq (ofNode_kept false ids h), wireMask, h.mask, has_keptMask]
    rfl
  have hradix (base n : Nat) (hb : 1 < base) (hb16 : base ≤ 16) :=
    zero_notMem_printRadix hb hb16 n
  rw [fattrEncode, hsent]
  simp only [List.mem_append, not_or, has_keptMask]
  refine ⟨⟨⟨⟨⟨⟨⟨⟨⟨⟨⟨⟨zero_notMem_pieceIf true fun _ => hradix 16 _ (by decide) (by decide),
    ?_⟩, ?_⟩, ?_⟩, ?_⟩, ?_⟩, ?_⟩, ?_⟩, ?_⟩, ?_⟩, ?_⟩, ?_⟩, ?_⟩
  case refine_1 | refine_8 | refine_9 | refine_11 =>
    exact zero_notMem_pieceIf _ fun _ => hradix _ _ (by decide) (by decide)
  case refine_2 | refine_3 | refine_5 | refine_10 | refine_12 =>
    exact zero_notMem_pieceIf _ fun _ => zero_notMem_printInt _
  all_goals exact zero_notMem_pieceIf _ fun ho => by simp at ho

/-! ## Compared -/

theorem and_perm_iff (x : BitVec 32) : x &&& 0o7777 = x &&& 0o777 ↔ x &&& 0o7000 = 0 := by
  have hor : (0o7777 : BitVec 32) = 0o777 ||| 0o7000 := by decide
  rw [hor, BitVec.and_or_distrib_left]
  constructor
  · intro h
    have hand := congrArg (· &&& (0o7000 : BitVec 32)) h
    have h0 : x &&& 0o777 &&& 0o7000 = 0 := by
      rw [BitVec.and_assoc]
      exact BitVec.and_zero
    rw [BitVec.and_or_distrib_right, h0, BitVec.and_assoc, BitVec.and_self] at hand
    exact BitVec.zero_or.symm.trans hand
  · intro h
    rw [h]
    exact BitVec.or_zero

/-- A file and what is read back of it. -/
theorem fattrEqual_keptBack (fflags : Bool) {sb : Stat} (h : sb.type = .file) :
    fattrEqual (fattrFromstat fflags sb) (keptBack sb) = true ↔
      sb.nlink = 1 ∧ sb.mode &&& 0o7000 = 0 := by
  obtain ⟨hmask, htype, hmodtime, hsize, hmode, hlink⟩ := fromstat_file fflags h
  have hhas (a : Attr) : has (keptBack sb).mask a = (has keptMask a || decide (a = .linkcount)) := by
    show has (keptMask ||| Attr.linkcount.bit) a = _
    rw [has_or, has_bit]
    simp only [eq_comm]
  rw [fattrEqual_iff, ← and_perm_iff]
  constructor
  · intro ⟨_, _, hsame⟩
    have hl : (fattrFromstat fflags sb).linkcount = 1 :=
      hsame .linkcount (by rw [hmask]; cases fflags <;> decide) (by rw [hhas]; rfl)
    have hm : (fattrFromstat fflags sb).mode = sb.mode &&& 0o777 :=
      hsame .mode (by rw [hmask]; cases fflags <;> decide) (by rw [hhas]; decide)
    exact ⟨hlink.symm.trans hl, hmode.symm.trans hm⟩
  · intro ⟨hn, hperm⟩
    refine ⟨by rw [htype]; decide, show FileType.file ≠ .unknown by decide, fun a _ ha => ?_⟩
    rw [hhas, has_keptMask] at ha
    cases a with
    | filetype => exact htype
    | modtime => exact hmodtime
    | size => exact hsize
    | mode => exact hmode.trans hperm
    | linkcount => exact hlink.trans hn
    | _ => simp at ha

/-- A file and what the server says of it. -/
theorem fattrEqual_forcheckout {fflags : Bool} {sb : Stat} {rcsattr : Fattr} {umask : BitVec 32}
    (h : sb.type = .file) (hn : sb.nlink = 1) (hset : sb.mode &&& 0o7000 = 0)
    (hperm : has rcsattr.mask .mode = true →
      sb.mode &&& 0o777 = (fattrForcheckout fflags rcsattr umask).mode) :
    fattrEqual (fattrFromstat fflags sb) (fattrForcheckout fflags rcsattr umask) = true := by
  obtain ⟨-, htype, -, -, hmode, hlink⟩ := fromstat_file fflags h
  obtain ⟨hft, hflink⟩ := forcheckout_type fflags rcsattr umask
  rw [fattrEqual_iff]
  refine ⟨by rw [htype]; decide, by rw [hft]; decide, fun a _ ha => ?_⟩
  rw [has_forcheckout] at ha
  cases a with
  | filetype => exact htype.trans hft.symm
  | mode =>
    have hhas : has rcsattr.mask .mode = true := by simpa using ha
    show (fattrFromstat fflags sb).mode = _
    rw [hmode, (and_perm_iff _).mpr hset, hperm hhas]
  | linkcount => exact (hlink.trans hn).trans hflink.symm
  | _ => simp at ha

end Csup.Attrs
