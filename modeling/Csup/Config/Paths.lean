import Csup.Config.Options

/-!
# Status files

The path of a status file is made of the name of the collection and of a suffix, which a release and a
tag, or a list suffix, are part of.

* `string_tokens`: what is read of a supfile has neither colons nor white space;
* `collStatuspath_iff`: which collections of a session have the same status file.
-/

namespace Csup.Config

open Csup.Framework (lastValue)

variable {args : List CmdArg} {umask : BitVec 32} {reads : Reads} {content : List Byte}
  {colls : List Coll} {coll coll' : Coll} {lines : List Stmt}

/-! ## What a supfile can say -/

theorem wordToken_string {w v : List Byte} (h : wordToken w = .string v) : v = w := by
  rw [wordToken] at h
  cases hfind : keywords.find? (·.1 = w) with
  | none =>
    rw [hfind] at h
    exact (Token.string.inj h).symm
  | some p =>
    rw [hfind] at h
    have hall : ∀ p ∈ keywords, p.2 ≠ .string v := by simp [keywords]
    exact absurd h (hall p (List.mem_of_find?_eq_some hfind))

/-- A string of the scanner is a word. -/
theorem string_tokens {s v : List Byte} (h : .string v ∈ tokens s) : v.all wordByte = true := by
  induction s using tokens.induct with
  | case1 =>
    rw [tokens] at h
    cases h
  | case2 s ih =>
    rw [tokens, if_pos rfl] at h
    exact ih h
  | case3 b s hb hd ih =>
    rw [tokens, if_neg hb, if_pos hd] at h
    exact ih (List.mem_of_ne_of_mem (by simp) h)
  | case4 s hb hd ih =>
    rw [tokens, if_neg hb, if_neg hd, if_pos rfl] at h
    exact ih (List.mem_of_ne_of_mem (by simp) h)
  | case5 b s hb hd he hw ih =>
    rw [tokens, if_neg hb, if_neg hd, if_neg he, if_pos hw] at h
    rcases List.mem_cons.mp h with heq | h
    · rw [wordToken_string heq.symm, List.all_cons, hw, Bool.true_and]
      exact List.all_eq_true.mpr fun b hb => List.mem_takeWhile_imp hb
    · exact ih h
  | case6 b s hb hd he hw ih =>
    rw [tokens, if_neg hb, if_neg hd, if_neg he, if_neg hw] at h
    exact ih h

theorem mem_collsOf {ds : List Opt} {p : List Byte × List Opt} {o : Opt}
    (hp : p ∈ collsOf ds lines) (ho : o ∈ p.2) : o ∈ ds ∨ ∃ l ∈ lines, o ∈ l.opts := by
  induction lines generalizing ds with
  | nil => cases hp
  | cons l lines ih =>
    obtain ⟨head, opts⟩ := l
    have hcons : (o ∈ ds ++ opts ∨ ∃ l ∈ lines, o ∈ l.opts) →
        o ∈ ds ∨ ∃ l ∈ (⟨head, opts⟩ :: lines : List Stmt), o ∈ l.opts := by
      rintro (h | ⟨l, hl, h⟩)
      · rcases List.mem_append.mp h with h | h
        · exact .inl h
        · exact .inr ⟨_, List.mem_cons_self, h⟩
      · exact .inr ⟨l, .tail _ hl, h⟩
    cases head with
    | default => exact hcons (ih hp)
    | coll name =>
      rcases List.mem_cons.mp hp with rfl | hp
      · exact hcons (.inl ho)
      · rcases ih hp with h | ⟨l, hl, h⟩
        · exact .inl h
        · exact .inr ⟨l, .tail _ hl, h⟩

/-- The last value of a setting is one of the values. -/
theorem mem_of_lastOf {i : Pt} {opts : List Opt} {v : List Byte} (h : lastOf i opts = some v) :
    (i, v) ∈ opts := by
  obtain ⟨o, ho, hv⟩ := List.exists_of_findSome?_eq_some h
  rw [valueOf] at hv
  split at hv
  · rename_i hi
    obtain rfl := Option.some.inj hv
    obtain rfl := hi
    exact List.mem_reverse.mp ho
  · cases hv

/-- The value of a setting is a word of the file. -/
theorem word_of_option {p : List Byte × List Opt} {i : Pt} {v : List Byte}
    (hi : i.isBoolean = false) (htokens : tokens content = lines.flatMap Stmt.tokens)
    (hp : p ∈ collsOf [] lines) (h : lastOf i p.2 = some v) : v.all wordByte = true := by
  refine string_tokens (s := content) ?_
  rcases mem_collsOf hp (mem_of_lastOf h) with h | ⟨l, hl, h⟩
  · cases h
  · rw [htokens]
    refine List.mem_flatMap.mpr ⟨l, hl, .tail _ (List.mem_flatMap.mpr ⟨_, h, ?_⟩)⟩
    rw [optTokens, if_neg (by simp [hi])]
    exact .tail _ (.tail _ (.head _))

/-! ## Suffixes -/

/-- The separators of two equal lists are in one place, or there is one more of them. -/
theorem separated {b : Byte} {x y x' y' : List Byte} (h : x ++ b :: y = x' ++ b :: y') :
    x = x' ∧ y = y' ∨ b ∈ x ∧ b ∈ y' ∨ b ∈ x' ∧ b ∈ y := by
  rcases List.append_eq_append_iff.mp h with ⟨z, hx, hy⟩ | ⟨z, hx, hy⟩
  · cases z with
    | nil => exact .inl ⟨by rw [hx, List.append_nil], (List.cons.inj hy).2⟩
    | cons c z =>
      obtain ⟨rfl, rfl⟩ := List.cons.inj hy
      exact .inr (.inr ⟨by simp [hx], by simp⟩)
  · cases z with
    | nil => exact .inl ⟨by rw [hx, List.append_nil], (List.cons.inj hy).2.symm⟩
    | cons c z =>
      obtain ⟨rfl, rfl⟩ := List.cons.inj hy
      exact .inr (.inl ⟨by simp [hx], by simp⟩)

/-- What a supfile makes sure of. -/
structure Spelled (coll : Coll) : Prop where
  name : coll.name.isSome
  tag : coll.tag.isSome
  release : ∃ release, coll.release = some release ∧ 58 ∉ release
  listsuffix : ∀ s ∈ coll.listsuffix, 47 ∉ s

/-- There are no slashes in a release and in a tag. -/
def Flat (coll : Coll) : Prop := 47 ∉ coll.release.getD [] ∧ 47 ∉ coll.tag.getD []

/-- What a suffix says of a collection without a list suffix. -/
def statusKey (coll : Coll) : Option (List Byte × Option (List Byte)) :=
  if has coll.options CO_USERELSUFFIX then
    some (coll.release.getD [],
      if has coll.options CO_CHECKOUTMODE then some (coll.tag.getD []) else none)
  else none

def keySuffix (key : List Byte × Option (List Byte)) : List Byte :=
  46 :: key.1 ++ (key.2.map (58 :: ·)).getD []

theorem collStatussuffix_key (h : Spelled coll) (hl : coll.listsuffix = none) :
    collStatussuffix coll = some ((statusKey coll).map keySuffix) := by
  obtain ⟨release, hr, -⟩ := h.release
  obtain ⟨tag, ht⟩ := Option.isSome_iff_exists.mp h.tag
  unfold collStatussuffix statusKey
  rw [hl, hr, ht]
  by_cases hu : has coll.options CO_USERELSUFFIX = true
  · by_cases hc : has coll.options CO_CHECKOUTMODE = true <;> simp [hu, hc, keySuffix]
  · simp [hu]

theorem collStatussuffix_list {s : List Byte} (hl : coll.listsuffix = some s) :
    collStatussuffix coll = some (some (46 :: s)) := by
  unfold collStatussuffix
  rw [hl]

/-- A suffix is not empty. -/
theorem ne_nil_of_suffix (h : Spelled coll) {s : List Byte}
    (hs : collStatussuffix coll = some (some s)) : s ≠ [] := by
  cases hl : coll.listsuffix with
  | some l =>
    rw [collStatussuffix_list hl] at hs
    obtain rfl := Option.some.inj (Option.some.inj hs)
    exact List.cons_ne_nil _ _
  | none =>
    rw [collStatussuffix_key h hl] at hs
    obtain ⟨key, -, rfl⟩ := Option.map_eq_some_iff.mp (Option.some.inj hs)
    exact List.cons_ne_nil _ _

theorem slash_notMem_suffix (h : Spelled coll) (hf : Flat coll) {s : List Byte}
    (hs : collStatussuffix coll = some (some s)) : 47 ∉ s := by
  cases hl : coll.listsuffix with
  | some l =>
    rw [collStatussuffix_list hl] at hs
    obtain rfl := Option.some.inj (Option.some.inj hs)
    simpa using h.listsuffix l hl
  | none =>
    rw [collStatussuffix_key h hl] at hs
    obtain ⟨key, hkey, rfl⟩ := Option.map_eq_some_iff.mp (Option.some.inj hs)
    unfold statusKey at hkey
    split at hkey
    · obtain rfl := Option.some.inj hkey
      unfold keySuffix
      split <;> simp [hf.1, hf.2]
    · cases hkey

theorem keySuffix_inj {key key' : List Byte × Option (List Byte)} (h : 58 ∉ key.1)
    (h' : 58 ∉ key'.1) (heq : keySuffix key = keySuffix key') : key = key' := by
  obtain ⟨r, t⟩ := key
  obtain ⟨r', t'⟩ := key'
  have heq : r ++ (t.map (58 :: ·)).getD [] = r' ++ (t'.map (58 :: ·)).getD [] := (List.cons.inj heq).2
  cases t with
  | none =>
    cases t' with
    | none => simpa using heq
    | some t' =>
      obtain rfl : r = r' ++ 58 :: t' := by simpa using heq
      exact absurd (by simp) h
  | some t =>
    cases t' with
    | none =>
      obtain rfl : r' = r ++ 58 :: t := by simpa using heq.symm
      exact absurd (by simp) h'
    | some t' =>
      rcases separated heq with ⟨rfl, rfl⟩ | ⟨hmem, -⟩ | ⟨hmem, -⟩
      · rfl
      · exact absurd hmem h
      · exact absurd hmem h'

/-- Two collections without list suffixes. -/
theorem suffix_iff (h : Spelled coll) (h' : Spelled coll') (hl : coll.listsuffix = none)
    (hl' : coll'.listsuffix = none) :
    collStatussuffix coll = collStatussuffix coll' ↔ statusKey coll = statusKey coll' := by
  have hcolon : ∀ {c : Coll} {key}, Spelled c → statusKey c = some key → 58 ∉ key.1 := by
    intro c key hc hkey
    obtain ⟨release, hr, hmem⟩ := hc.release
    unfold statusKey at hkey
    split at hkey
    · obtain rfl := Option.some.inj hkey
      rw [hr]
      exact hmem
    · cases hkey
  rw [collStatussuffix_key h hl, collStatussuffix_key h' hl', Option.some_inj]
  refine ⟨fun heq => ?_, fun heq => by rw [heq]⟩
  cases hk : statusKey coll with
  | none =>
    rw [hk] at heq
    exact (Option.map_eq_none_iff.mp heq.symm).symm
  | some key =>
    rw [hk] at heq
    obtain ⟨key', hk', hs⟩ := Option.map_eq_some_iff.mp heq.symm
    rw [hk', keySuffix_inj (hcolon h' hk') (hcolon h hk) hs]

theorem exists_suffix (h : Spelled coll) : ∃ suffix, collStatussuffix coll = some suffix := by
  obtain ⟨release, hr, -⟩ := h.release
  exact Option.isSome_iff_exists.mp (isSome_collStatussuffix (by rw [hr]; rfl))

/-- The name and the suffix can be read off the path. -/
theorem path_iff (h : Spelled coll) (h' : Spelled coll') (hf : Flat coll) (hf' : Flat coll')
    (hdir : supdir coll = supdir coll') :
    collStatuspath coll = collStatuspath coll' ↔
      coll.name = coll'.name ∧ collStatussuffix coll = collStatussuffix coll' := by
  obtain ⟨name, hn⟩ := Option.isSome_iff_exists.mp h.name
  obtain ⟨name', hn'⟩ := Option.isSome_iff_exists.mp h'.name
  obtain ⟨suffix, hs⟩ := exists_suffix h
  obtain ⟨suffix', hs'⟩ := exists_suffix h'
  have hslash : ∀ {c : Coll} {s}, Spelled c → Flat c → collStatussuffix c = some s →
      47 ∉ bytes "checkouts".toList ++ s.getD [] := by
    intro c s hc hflat hcs
    rw [List.mem_append, not_or]
    refine ⟨by decide, ?_⟩
    cases s with
    | none => exact List.not_mem_nil
    | some s => exact slash_notMem_suffix hc hflat hcs
  unfold collStatuspath
  rw [hs, hs', hn, hn', hdir, Option.some_inj, Option.some_inj]
  refine ⟨fun heq => ?_, fun ⟨heq, hsuffix⟩ => by rw [heq, hsuffix]⟩
  have heq : name ++ 47 :: (bytes "checkouts".toList ++ suffix.getD []) =
      name' ++ 47 :: (bytes "checkouts".toList ++ suffix'.getD []) := by
    have hpath := (List.cons.inj (List.append_cancel_left (Option.some.inj heq))).2
    rw [List.append_assoc, List.append_assoc] at hpath
    exact hpath
  rcases separated heq with ⟨rfl, hsuffix⟩ | ⟨-, hmem⟩ | ⟨-, hmem⟩
  · refine ⟨rfl, ?_⟩
    have hsuffix := List.append_cancel_left hsuffix
    cases suffix with
    | none =>
      cases suffix' with
      | none => rfl
      | some s' => exact absurd hsuffix.symm (ne_nil_of_suffix h' hs')
    | some s =>
      cases suffix' with
      | none => exact absurd hsuffix (ne_nil_of_suffix h hs)
      | some s' => exact congrArg some hsuffix
  · exact absurd hmem (hslash h' hf' hs')
  · exact absurd hmem (hslash h hf hs)

/-! ## The collections of a session -/

theorem spelled_readied {p : List Byte × List Opt}
    (htokens : tokens content = lines.flatMap Stmt.tokens)
    (hacc : Accepted (override args).1 [] [] lines) (hp : p ∈ collsOf [] lines) :
    Spelled (readied reads (collOf umask (override args).1 (override args).2 p)) := by
  obtain ⟨hrelease, -, hlist, -⟩ := override_blank args
  refine ⟨rfl, ?_, ?_, ?_⟩
  · show Option.isSome (Option.or _ (Option.or _ (some [46]))) = true
    simp
  · have hr : releaseOf (override args).1 p = lastOf .release p.2 := by
      rw [releaseOf, hrelease, Option.none_or]
    have hsome := (hacc.addable p hp).release
    rw [hr] at hsome
    obtain ⟨release, hlast⟩ := Option.isSome_iff_exists.mp hsome
    refine ⟨release, hr.trans hlast, fun hmem => ?_⟩
    have hword := List.all_eq_true.mp (word_of_option rfl htokens hp hlast) 58 hmem
    exact absurd hword (by decide)
  · intro s hs
    have hs : (override args).1.listsuffix.or (lastOf .list p.2) = some s := hs
    rw [hlist, Option.none_or] at hs
    rcases mem_collsOf hp (mem_of_lastOf hs) with h | ⟨l, hl, h⟩
    · cases h
    · exact (hacc.valid l hl _ h).1 rfl

/-- Which collections of a session have the same status file, in one directory and with releases and
tags that are no paths: those of one name with the same release and tag, as far as they count. -/
theorem collStatuspath_iff
    (h : configInit reads umask (override args).1 (override args).2 content = .ok (some colls))
    (hc : coll ∈ colls) (hc' : coll' ∈ colls) (hf : Flat coll) (hf' : Flat coll')
    (hdir : supdir coll = supdir coll') :
    (collStatuspath coll = collStatuspath coll' ↔
      coll.name = coll'.name ∧ collStatussuffix coll = collStatussuffix coll') ∧
    (coll.listsuffix = none → coll'.listsuffix = none →
      (collStatussuffix coll = collStatussuffix coll' ↔ statusKey coll = statusKey coll')) := by
  obtain ⟨lines, htokens, hacc, -, -, rfl⟩ := configInit_ok h
  obtain ⟨p, hp, rfl⟩ := List.mem_map.mp hc
  obtain ⟨q, hq, rfl⟩ := List.mem_map.mp hc'
  have hspelled : ∀ p ∈ collsOf [] lines,
      Spelled (readied reads (collOf umask (override args).1 (override args).2 p)) :=
    fun p hp => spelled_readied htokens hacc hp
  exact ⟨path_iff (hspelled p hp) (hspelled q hq) hf hf' hdir,
    suffix_iff (hspelled p hp) (hspelled q hq)⟩

/-- A collection of `threeFile`. -/
def collOfThree (p : List Byte × List Opt) : Coll :=
  readied (fun _ => none) (collOf 18 (override []).1 (override []).2 p)

theorem collStatuspath_iff_threeLines :
    let a := collOfThree ([97], [(.host, [104]), (.release, [114]), (.compress, [])])
    let b := collOfThree ([98], [(.host, [104]), (.release, [114])])
    (collStatuspath a = collStatuspath b ↔
      a.name = b.name ∧ collStatussuffix a = collStatussuffix b) ∧
    (a.listsuffix = none → b.listsuffix = none →
      (collStatussuffix a = collStatussuffix b ↔ statusKey a = statusKey b)) :=
  collStatuspath_iff (configInit_of_lines (tokens_of_renders renders_threeLines)
      (accepted_threeLines _) (by decide) fun _ _ _ _ r hr => (by cases hr))
    (List.mem_map.mpr ⟨_, List.mem_cons_self, rfl⟩)
    (List.mem_map.mpr ⟨_, .tail _ List.mem_cons_self, rfl⟩)
    ⟨by decide, by decide⟩ ⟨by decide, by decide⟩ rfl

end Csup.Config
