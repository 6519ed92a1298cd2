import Pagebox.Storage.SlottedLayout

/-!
# Child edges in a page that is written back

An inner index page in memory has a word for each child, in the value of a slot or at the
end of the page: the address of the child's frame, with the cool bit or without it, or
the page id with the evicted bit.  The copy that is written or logged has page ids only.
-/

namespace Pagebox.Storage

open Pagebox.Base List

inductive PageType
  | unknown | index | tuple | delta | metaPage | rootMeta | beTreeInternal | beTreeLeaf
  deriving DecidableEq

def PageType.fromU8 : Nat → PageType
  | 1 => .index
  | 2 => .tuple
  | 3 => .delta
  | 4 => .metaPage
  | 5 => .rootMeta
  | 6 => .beTreeInternal
  | 7 => .beTreeLeaf
  | _ => .unknown

/-- The pool as the conversion sees it: its arena, the page in each frame, and the
registered `page_writeback_preparers`. -/
structure SwipPool (ps : PageSize) where
  base : Nat
  len : Nat
  stride : Nat
  pid : Nat → Nat
  preparers : PageType → Option (Page ps → Page ps)
  low : ps.bytes ≤ base
  aligned : 4096 ∣ base ∧ 4096 ∣ stride
  positive : 0 < stride
  high : base + len * stride ≤ 2 ^ 62
  pid_lt : ∀ i, pid i < 2 ^ 62

def evictedWord (pid : Nat) : Nat := 2 ^ 63 ||| pid

variable {ps : PageSize}

abbrev slotted (p : Page ps) : SlottedPage ps := ⟨p⟩

namespace SwipPool

variable (pool : SwipPool ps)

def frameAddr (i : Nat) : Nat := pool.base + i * pool.stride

def fromHotSwip (_ : SwipPool ps) (raw : Nat) : Option Nat :=
  if raw / 2 ^ 62 = 0 ∨ raw / 2 ^ 62 = 1 then
    let addr := raw % 2 ^ 62
    if addr < ps.bytes ∨ addr % 4096 ≠ 0 then none else some addr
  else none

def containsFrame (addr : Nat) : Bool :=
  pool.base ≤ addr ∧ addr < pool.base + pool.len * pool.stride ∧
    (addr - pool.base) % pool.stride = 0

/-- The page id that a word is replaced by, if it is. -/
def childPid (raw : Nat) : Option Nat :=
  match pool.fromHotSwip raw with
  | some addr =>
    if pool.containsFrame addr then some (pool.pid ((addr - pool.base) / pool.stride)) else none
  | none => none

def convertSlot (p : SlottedPage ps) (i : Nat) : Except Fault (SlottedPage ps) :=
  let val := p.getValue i
  if val.length < 8 then .ok p
  else
    match pool.childPid (leNat (val.take 8)) with
    | some pid => (p.updateValue i (leBytes 8 (evictedWord pid))).map Prod.fst
    | none => .ok p

def convertUpper (p : Page ps) : Page ps :=
  match pool.childPid (p.readNat (ps.bytes - 8) 8) with
  | some pid => p.writeNat (ps.bytes - 8) 8 (evictedWord pid)
  | none => p

end SwipPool

def readPageType (p : Page ps) : PageType :=
  .fromU8 (((slotted p).flags &&& 0x0f00) >>> 8)

def hasLeafFlag (p : Page ps) : Bool := (slotted p).flags &&& 2 ≠ 0

def isInnerIndexPage (p : Page ps) : Bool := readPageType p = .index ∧ hasLeafFlag p = false

def convertSwipsInBuf (pool : SwipPool ps) (p : Page ps) : Except Fault (Page ps) :=
  if readPageType p ≠ .index then .ok p
  else if hasLeafFlag p then .ok p
  else do
    let q ← (range (slotted p).numSlots).foldlM pool.convertSlot (slotted p)
    return pool.convertUpper q.data

def preparePageCopyForWriteback (pool : SwipPool ps) (p : Page ps) : Except Fault (Page ps) :=
  match pool.preparers (readPageType p) with
  | some preparer => .ok (preparer p)
  | none => if readPageType p ≠ .index then .ok p else convertSwipsInBuf pool p

/-- The page whose ranges `mark_dirty_ranges_raw` logs. -/
def loggedSource (pool : SwipPool ps) (p : Page ps) : Except Fault (Page ps) :=
  if isInnerIndexPage p || (pool.preparers (readPageType p)).isSome then
    preparePageCopyForWriteback pool p
  else .ok p

/-- The word refers to the child with the page id: it is evicted, or the frame that its
address names holds the child. -/
inductive Refers (pool : SwipPool ps) : Nat → Nat → Prop
  | evicted (pid : Nat) : pid < 2 ^ 62 → Refers pool (evictedWord pid) pid
  | hot (i : Nat) : i < pool.len → Refers pool (pool.frameAddr i) (pool.pid i)
  | cool (i : Nat) : i < pool.len → Refers pool (2 ^ 62 + pool.frameAddr i) (pool.pid i)

theorem evictedWord_eq {pid : Nat} (h : pid < 2 ^ 62) : evictedWord pid = 2 ^ 63 + pid := by
  have hor := Nat.two_pow_add_eq_or_of_lt (i := 63) (b := pid) (by omega) 1
  exact hor.symm

variable {pool : SwipPool ps} {p q : Page ps} {w c : Nat} {child : Nat → Nat}

theorem Refers.pid_lt (h : Refers pool w c) : c < 2 ^ 62 := by
  cases h with
  | evicted _ h => exact h
  | hot i => exact pool.pid_lt i
  | cool i => exact pool.pid_lt i

theorem frameAddr_lt {i : Nat} (hi : i < pool.len) :
    pool.base ≤ pool.frameAddr i ∧ pool.frameAddr i < pool.base + pool.len * pool.stride :=
  ⟨Nat.le_add_right _ _, Nat.add_lt_add_left (Nat.mul_lt_mul_of_pos_right hi pool.positive) _⟩

theorem childPid_frameAddr {raw i : Nat} (hi : i < pool.len)
    (hraw : raw % 2 ^ 62 = pool.frameAddr i)
    (hstate : raw / 2 ^ 62 = 0 ∨ raw / 2 ^ 62 = 1) : pool.childPid raw = some (pool.pid i) := by
  have hlow := pool.low
  have haligned : 4096 ∣ pool.frameAddr i :=
    Nat.dvd_add pool.aligned.1 (pool.aligned.2.mul_left i)
  obtain ⟨hbase, hend⟩ := frameAddr_lt hi
  have hoff : pool.frameAddr i - pool.base = i * pool.stride := Nat.add_sub_cancel_left _ _
  have hin : pool.containsFrame (pool.frameAddr i) = true := by
    simp only [SwipPool.containsFrame, hoff, Nat.mul_mod_left, decide_eq_true_eq]
    exact ⟨hbase, hend, trivial⟩
  have hfrom : pool.fromHotSwip raw = some (pool.frameAddr i) := by
    rw [SwipPool.fromHotSwip, if_pos hstate]
    simp only [hraw]
    exact if_neg (by omega)
  simp only [SwipPool.childPid, hfrom, if_pos hin, hoff, Nat.mul_div_cancel _ pool.positive]

/-- A word that refers to a child is replaced by the evicted word of the child, or is it. -/
theorem Refers.childPid (h : Refers pool w c) :
    pool.childPid w = some c ∨ pool.childPid w = none ∧ w = evictedWord c := by
  cases h with
  | evicted pid h =>
    refine .inr ⟨?_, rfl⟩
    have hword := evictedWord_eq h
    rw [SwipPool.childPid, SwipPool.fromHotSwip, if_neg (by omega)]
  | hot i hi =>
    have hlt := (frameAddr_lt hi).2.trans_le pool.high
    exact .inl (childPid_frameAddr hi (Nat.mod_eq_of_lt hlt) (.inl (Nat.div_eq_of_lt hlt)))
  | cool i hi =>
    have hlt := (frameAddr_lt hi).2.trans_le pool.high
    exact .inl (childPid_frameAddr hi (by omega) (.inr (by omega)))

def SlottedPage.valuePos (p : SlottedPage ps) (i : Nat) : Nat :=
  (p.slot i).offset + (p.slot i).keyLen

def edges (p : Page ps) : List Nat :=
  (range (slotted p).numSlots).map (slotted p).valuePos ++ [ps.bytes - 8]

/-- An inner index page: its values are words that lie apart from each other, between the
slots and the word at the end of the page. -/
structure InnerPage (p : Page ps) : Prop where
  inner : isInnerIndexPage p = true
  room : (slotted p).slotArrayEnd + 8 ≤ ps.bytes
  values : ∀ i < (slotted p).numSlots, ((slotted p).slot i).valLen = 8 ∧
    (slotted p).slotArrayEnd ≤ (slotted p).valuePos i ∧ (slotted p).valuePos i + 16 ≤ ps.bytes
  apart : ∀ i j, i < j → j < (slotted p).numSlots →
    (slotted p).valuePos i + 8 ≤ (slotted p).valuePos j ∨
      (slotted p).valuePos j + 8 ≤ (slotted p).valuePos i

/-- Pages that agree on every range without one of the words at `l`. -/
def AgreeOutside (l : List Nat) (p q : Page ps) : Prop :=
  ∀ a b, (∀ pos ∈ l, b ≤ pos ∨ pos + 8 ≤ a) → q.slice a b = p.slice a b

/-- The words at `l` of `p` were replaced by those of the children. -/
structure Converted (child : Nat → Nat) (l : List Nat) (p q : Page ps) : Prop where
  outside : AgreeOutside l p q
  words : ∀ pos ∈ l, q.readNat pos 8 = evictedWord (child pos)

theorem Converted.write {l : List Nat} {pos : Nat} (h : Converted child l p q)
    (hfit : pos + 8 ≤ ps.bytes) (hc : child pos < 2 ^ 62)
    (hapart : ∀ x ∈ l, x + 8 ≤ pos ∨ pos + 8 ≤ x) :
    Converted child (l ++ [pos]) p (q.writeNat pos 8 (evictedWord (child pos))) := by
  constructor
  · intro a b hout
    rw [Page.slice_writeNat_of_disjoint q (hout pos (by simp))]
    exact h.outside a b fun x hx => hout x (mem_append_left _ hx)
  · intro x hx
    rcases mem_append.mp hx with hx | hx
    · rw [Page.readNat_writeNat_of_disjoint q (hapart x hx)]
      exact h.words x hx
    · rw [mem_singleton.mp hx]
      refine Page.readNat_writeNat q hfit ?_
      rw [evictedWord_eq hc]
      omega

theorem convertSlot_eq {i : Nat} (hval : ((slotted q).slot i).valLen = 8)
    (hfit : (slotted q).valuePos i + 8 ≤ ps.bytes)
    (href : Refers pool (q.readNat ((slotted q).valuePos i) 8) c) :
    pool.convertSlot (slotted q) i =
      .ok (slotted (q.writeNat ((slotted q).valuePos i) 8 (evictedWord c))) := by
  have hvalue : (slotted q).getValue i =
      q.slice ((slotted q).valuePos i) ((slotted q).valuePos i + 8) := by
    rw [SlottedPage.getValue, hval]
    rfl
  have hlen : ((slotted q).getValue i).length = 8 := by
    rw [hvalue, Page.length_slice hfit]
    omega
  have hraw : leNat (((slotted q).getValue i).take 8) = q.readNat ((slotted q).valuePos i) 8 := by
    rw [take_of_length_le hlen.le, hvalue]
    rfl
  simp only [SwipPool.convertSlot, hlen, lt_irrefl, if_false, hraw]
  rcases href.childPid with hsome | ⟨hnone, hword⟩
  · have hput : (slotted q).put ((slotted q).valuePos i) (leBytes 8 (evictedWord c)) =
        .ok (slotted (q.writeNat ((slotted q).valuePos i) 8 (evictedWord c))) :=
      if_pos (by rwa [length_leBytes])
    rw [hsome, ← hput]
    simp only [SlottedPage.updateValue, length_leBytes, hval, ne_eq, not_true, if_false]
    change ((slotted q).put ((slotted q).valuePos i) _ >>= _).map Prod.fst = _
    rw [hput]
    rfl
  · simp only [hnone]
    rw [← hword, Page.writeNat_readNat q hfit]

theorem convertUpper_eq (href : Refers pool (q.readNat (ps.bytes - 8) 8) c) :
    pool.convertUpper q = q.writeNat (ps.bytes - 8) 8 (evictedWord c) := by
  have hfit := Nat.sub_add_cancel (Page.eight_le_bytes ps)
  rw [SwipPool.convertUpper]
  rcases href.childPid with hsome | ⟨hnone, hword⟩
  · rw [hsome]
  · rw [hnone, ← hword, Page.writeNat_readNat q hfit.le]

theorem valuePos_mem_edges {i : Nat} (hi : i < (slotted p).numSlots) :
    (slotted p).valuePos i ∈ edges p :=
  mem_append_left _ (mem_map.mpr ⟨i, mem_range.mpr hi, rfl⟩)

theorem readNat_congr {a : Nat} (h : q.slice a (a + 8) = p.slice a (a + 8)) :
    q.readNat a 8 = p.readNat a 8 :=
  congrArg leNat h

theorem convertSlots (hp : InnerPage p)
    (href : ∀ pos ∈ edges p, Refers pool (p.readNat pos 8) (child pos)) {k : Nat}
    (hk : k ≤ (slotted p).numSlots) :
    ∃ q : Page ps, (range k).foldlM pool.convertSlot (slotted p) = .ok (slotted q) ∧
      Converted child ((range k).map (slotted p).valuePos) p q := by
  induction k with
  | zero => exact ⟨p, rfl, fun _ _ _ => rfl, by simp⟩
  | succ k ih =>
    obtain ⟨q, hq, hconv⟩ := ih (by omega)
    obtain ⟨hval, -, hfit⟩ := hp.values k hk
    have hmem := valuePos_mem_edges hk
    have hapart : ∀ x ∈ (range k).map (slotted p).valuePos,
        x + 8 ≤ (slotted p).valuePos k ∨ (slotted p).valuePos k + 8 ≤ x := by
      simp only [mem_map, mem_range, forall_exists_index, and_imp, forall_apply_eq_imp_iff₂]
      exact fun i hi => hp.apart i k hi hk
    have hslot : (slotted q).slot k = (slotted p).slot k := by
      refine SlottedPage.slot_congr (hconv.outside _ _ ?_)
      simp only [mem_map, mem_range, forall_exists_index, and_imp, forall_apply_eq_imp_iff₂]
      exact fun i hi => .inl ((SlottedPage.slotPos_lt hk).trans (hp.values i (by omega)).2.1)
    have hpos : (slotted q).valuePos k = (slotted p).valuePos k := by
      rw [SlottedPage.valuePos, hslot]
      rfl
    have hword : q.readNat ((slotted p).valuePos k) 8 = p.readNat ((slotted p).valuePos k) 8 :=
      readNat_congr (hconv.outside _ _ fun x hx => (hapart x hx).symm)
    have hstep := convertSlot_eq (hslot ▸ hval) (hpos ▸ by omega)
      (hpos ▸ hword ▸ href _ hmem)
    rw [hpos] at hstep
    have hconv' := hconv.write (by omega) (href _ hmem).pid_lt hapart
    rw [range_succ, map_append]
    refine ⟨_, ?_, hconv'⟩
    rw [foldlM_append, hq]
    exact (bind_pure _).trans hstep

theorem convertSwipsInBuf_spec (hp : InnerPage p)
    (href : ∀ pos ∈ edges p, Refers pool (p.readNat pos 8) (child pos)) :
    ∃ q, convertSwipsInBuf pool p = .ok q ∧ Converted child (edges p) p q := by
  obtain ⟨q, hq, hconv⟩ := convertSlots hp href le_rfl
  obtain ⟨htype, hleaf⟩ := of_decide_eq_true hp.inner
  have hupper : ∀ x ∈ (range (slotted p).numSlots).map (slotted p).valuePos,
      x + 8 ≤ ps.bytes - 8 := by
    simp only [mem_map, mem_range, forall_exists_index, and_imp, forall_apply_eq_imp_iff₂]
    intro i hi
    have := (hp.values i hi).2.2
    omega
  have hmem : ps.bytes - 8 ∈ edges p := mem_append_right _ (mem_singleton_self _)
  have hword := readNat_congr (hconv.outside (ps.bytes - 8) _ fun x hx => .inr (hupper x hx))
  have hfit := Nat.sub_add_cancel (Page.eight_le_bytes ps)
  refine ⟨_, ?_, hconv.write hfit.le (href _ hmem).pid_lt fun x hx => .inl (hupper x hx)⟩
  rw [convertSwipsInBuf, if_neg (not_not.mpr htype), hleaf, if_neg Bool.false_ne_true, hq]
  exact congrArg Except.ok (convertUpper_eq (hword ▸ href _ hmem))

/-- A page that differs from an inner page in child words only has the same layout. -/
theorem InnerPage.congr (hp : InnerPage p) (h : AgreeOutside (edges p) p q) :
    InnerPage q ∧ edges q = edges p := by
  have hbelow : ∀ a b, b ≤ (slotted p).slotArrayEnd → q.slice a b = p.slice a b := by
    refine fun a b hb => h a b fun pos hpos => .inl (hb.trans ?_)
    rcases mem_append.mp hpos with hpos | hpos
    · obtain ⟨i, hi, rfl⟩ := mem_map.mp hpos
      exact (hp.values i (mem_range.mp hi)).2.1
    · rw [mem_singleton.mp hpos]
      have := hp.room
      omega
  have hhead := SlottedPage.header_le_slotPos (slotted p).numSlots
  have hcount : (slotted q).numSlots = (slotted p).numSlots :=
    congrArg leNat (hbelow 16 18 (le_trans (by decide) hhead))
  have hflags : (slotted q).flags = (slotted p).flags :=
    congrArg leNat (hbelow 18 20 (le_trans (by decide) hhead))
  have hslot : ∀ i < (slotted p).numSlots, (slotted q).slot i = (slotted p).slot i := fun i hi =>
    SlottedPage.slot_congr (hbelow _ _ (SlottedPage.slotPos_lt hi))
  have hpos : ∀ i < (slotted p).numSlots, (slotted q).valuePos i = (slotted p).valuePos i := by
    intro i hi
    rw [SlottedPage.valuePos, hslot i hi]
    rfl
  have hend : (slotted q).slotArrayEnd = (slotted p).slotArrayEnd := congrArg slotPos hcount
  refine ⟨⟨?_, hend ▸ hp.room, fun i hi => ?_, fun i j hij hj => ?_⟩, ?_⟩
  · rw [isInnerIndexPage, readPageType, hasLeafFlag, hflags]
    exact hp.inner
  · rw [hcount] at hi
    rw [hslot i hi, hpos i hi, hend]
    exact hp.values i hi
  · rw [hcount] at hj
    rw [hpos i (hij.trans hj), hpos j hj]
    exact hp.apart i j hij hj
  · rw [edges, edges, hcount]
    exact congrArg (· ++ _) (map_congr_left fun i hi => hpos i (mem_range.mp hi))

/-- What a conversion makes of a page is determined by its other bytes and its children. -/
theorem Converted.unique {l : List Nat} {p' q' : Page ps} (h : Converted child l p q)
    (h' : Converted child l p' q') (hsame : AgreeOutside l p p')
    (hfit : ∀ pos ∈ l, pos + 8 ≤ ps.bytes) : q' = q := by
  have hbyte : ∀ {a b i}, q'.slice a b = q.slice a b → a + i < b →
      q'.bytes[a + i]? = q.bytes[a + i]? := by
    intro a b i hslice hi
    rw [← Page.getElem?_slice hi, hslice, Page.getElem?_slice hi]
  refine Page.ext_getElem? fun j => ?_
  by_cases hj : ∃ pos ∈ l, pos ≤ j ∧ j < pos + 8
  · obtain ⟨pos, hpos, hle, hlt⟩ := hj
    obtain ⟨i, rfl⟩ := Nat.exists_eq_add_of_le hle
    have hword := (h'.words pos hpos).trans (h.words pos hpos).symm
    refine hbyte (b := pos + 8) ?_ hlt
    have hlen : ∀ r : Page ps, (r.slice pos (pos + 8)).length = 8 := fun r =>
      (Page.length_slice (hfit pos hpos)).trans (Nat.add_sub_cancel_left pos 8)
    rw [← leBytes_leNat (q'.slice pos (pos + 8)),
      ← leBytes_leNat (q.slice pos (pos + 8)), hlen, hlen]
    exact congrArg (leBytes 8) hword
  · have hout : ∀ pos ∈ l, j + 1 ≤ pos ∨ pos + 8 ≤ j := by
      intro pos hpos
      by_contra hno
      exact hj ⟨pos, hpos, by omega, by omega⟩
    have hslice := (h'.outside j (j + 1) hout).trans ((hsame j (j + 1) hout).trans
      (h.outside j (j + 1) hout).symm)
    exact hbyte (i := 0) hslice (Nat.lt_succ_self j)

theorem InnerPage.of_layout {es : List Placed} (h : Layout 8 es (slotted p))
    (hvalues : ∀ e ∈ es, e.entry.value.length = 8) (hinner : isInnerIndexPage p = true) :
    InnerPage p := by
  have hslot : ∀ i < (slotted p).numSlots, ∃ e, es[i]? = some e ∧ e ∈ es ∧
      (slotted p).slot i = e.slot ∧ (slotted p).valuePos i + 8 = e.stop := by
    intro i hi
    rw [h.count] at hi
    have he := getElem?_eq_getElem hi
    refine ⟨_, he, getElem_mem hi, h.slots i _ he, ?_⟩
    rw [SlottedPage.valuePos, h.slots i _ he, Placed.stop, Entry.len, hvalues _ (getElem_mem hi),
      Nat.add_assoc]
    rfl
  have hend : (slotted p).slotArrayEnd = slotPos es.length := congrArg slotPos h.count
  have hgap := h.gap
  have hroom := h.room
  refine ⟨hinner, by omega, fun i hi => ?_, fun i j hij hj => ?_⟩
  · obtain ⟨e, -, hmem, heq, hstop⟩ := hslot i hi
    obtain ⟨hoffset, hin⟩ := h.inside e hmem
    have hlow : e.offset ≤ (slotted p).valuePos i := by
      rw [SlottedPage.valuePos, heq]
      exact Nat.le_add_right _ _
    exact ⟨heq ▸ hvalues e hmem, by omega, by omega⟩
  · obtain ⟨a, ha, -, haeq, hastop⟩ := hslot i (hij.trans hj)
    obtain ⟨b, hb, -, hbeq, hbstop⟩ := hslot j hj
    have hlow : a.offset ≤ (slotted p).valuePos i ∧ b.offset ≤ (slotted p).valuePos j := by
      rw [SlottedPage.valuePos, SlottedPage.valuePos, haeq, hbeq]
      exact ⟨Nat.le_add_right _ _, Nat.le_add_right _ _⟩
    obtain ⟨hi', rfl⟩ := List.getElem?_eq_some_iff.mp ha
    obtain ⟨hj', rfl⟩ := List.getElem?_eq_some_iff.mp hb
    have hapart := pairwise_iff_getElem.mp h.apart i j hi' hj' hij
    unfold Placed.Apart at hapart
    omega

theorem prepare_of_not_inner (hfree : pool.preparers (readPageType p) = none)
    (h : isInnerIndexPage p = false) : preparePageCopyForWriteback pool p = .ok p := by
  have hcases : readPageType p = .index → hasLeafFlag p = true := by
    simpa [isInnerIndexPage] using h
  rw [preparePageCopyForWriteback, hfree]
  by_cases htype : readPageType p = .index
  · simp [convertSwipsInBuf, htype, hcases htype]
  · exact if_pos htype

theorem prepare_of_inner (hfree : pool.preparers (readPageType p) = none)
    (h : isInnerIndexPage p = true) :
    preparePageCopyForWriteback pool p = convertSwipsInBuf pool p := by
  rw [preparePageCopyForWriteback, hfree]
  exact if_neg (not_not.mpr (of_decide_eq_true h).1)

/-- Where no preparer is registered for the type of the page, what is logged is what is
written back.  A page that is not an inner page is written as it is.  In an inner page
every child edge becomes the evicted word of the child, and nothing else changes; any page
that differs from it in the swizzling of its edges only is written as the same bytes, as
is the copy itself. -/
theorem writeback_canonical {es : List Placed} (hfree : pool.preparers (readPageType p) = none) :
    loggedSource pool p = preparePageCopyForWriteback pool p ∧
      (isInnerIndexPage p = false → preparePageCopyForWriteback pool p = .ok p) ∧
      (isInnerIndexPage p = true → Layout 8 es (slotted p) →
        (∀ e ∈ es, e.entry.value.length = 8) →
        (∀ pos ∈ edges p, Refers pool (p.readNat pos 8) (child pos)) →
        ∃ q, preparePageCopyForWriteback pool p = .ok q ∧
          (∀ pos ∈ edges p, q.readNat pos 8 = evictedWord (child pos)) ∧
          AgreeOutside (edges p) p q ∧
          preparePageCopyForWriteback pool q = .ok q ∧
          ∀ p', AgreeOutside (edges p) p p' →
            (∀ pos ∈ edges p, Refers pool (p'.readNat pos 8) (child pos)) →
            preparePageCopyForWriteback pool p' = .ok q) := by
  refine ⟨?_, prepare_of_not_inner hfree, fun hinner hlayout hvalues href => ?_⟩
  · rw [loggedSource, hfree]
    cases hinner : isInnerIndexPage p with
    | true => rfl
    | false => exact (prepare_of_not_inner hfree hinner).symm
  have hp := InnerPage.of_layout hlayout hvalues hinner
  obtain ⟨q, hq, hconv⟩ := convertSwipsInBuf_spec hp href
  have hsame : ∀ p', AgreeOutside (edges p) p p' →
      (∀ pos ∈ edges p, Refers pool (p'.readNat pos 8) (child pos)) →
      preparePageCopyForWriteback pool p' = .ok q := by
    intro p' hagree href'
    obtain ⟨hp', hedges⟩ := hp.congr hagree
    have htype : readPageType p' = readPageType p :=
      (of_decide_eq_true hp'.inner).1.trans (of_decide_eq_true hp.inner).1.symm
    obtain ⟨q', hq', hconv'⟩ := convertSwipsInBuf_spec hp' (hedges ▸ href')
    rw [hedges] at hconv'
    rw [prepare_of_inner (htype ▸ hfree) hp'.inner, hq', hconv.unique hconv' hagree ?_]
    intro pos hpos
    rcases mem_append.mp hpos with hpos | hpos
    · obtain ⟨i, hi, rfl⟩ := mem_map.mp hpos
      have := (hp.values i (mem_range.mp hi)).2.2
      omega
    · rw [mem_singleton.mp hpos]
      have := hp.room
      omega
  refine ⟨q, hsame p (fun _ _ _ => rfl) href, hconv.words, hconv.outside, ?_, hsame⟩
  refine hsame q hconv.outside fun pos hpos => ?_
  rw [hconv.words pos hpos]
  exact .evicted _ (href pos hpos).pid_lt

def twoFrames : SwipPool .k4 where
  base := 8192
  len := 2
  stride := 8192
  pid i := 5 + i % 2
  preparers
    | .tuple => some fun p => p.write 64 [255]
    | _ => none
  low := by decide
  aligned := by decide
  positive := by decide
  high := by decide
  pid_lt _ := by omega

/-- An inner page with one key; the words of its two edges are given. -/
def twoEdges (slotWord upperWord : Nat) : Page .k4 :=
  ((((((slotted (.zero .k4)).setDataOffset 4079).setSpaceUsed 17).setNumSlots 1).setFlags
    0x0100).setSlot 0 ⟨4079, 1, 8, makeHead [1]⟩).data.write 4079
      ([1] ++ leBytes 8 slotWord ++ leBytes 8 upperWord)

/-- A cool and a hot edge are written as the evicted words of their children, as if both
had been evicted before. -/
theorem writeback_canonical_hot :
    let p := twoEdges (2 ^ 62 + twoFrames.frameAddr 1) (twoFrames.frameAddr 0)
    ∃ q, preparePageCopyForWriteback twoFrames p = .ok q ∧
      preparePageCopyForWriteback twoFrames (twoEdges (evictedWord 6) (evictedWord 5)) = .ok q ∧
      q.readNat 4080 8 = evictedWord 6 ∧ q.readNat 4088 8 = evictedWord 5 := by
  intro p
  have hlayout : Layout 8 [⟨4079, [1], leBytes 8 (2 ^ 62 + twoFrames.frameAddr 1)⟩]
      (slotted p) := by
    refine ⟨by decide, by decide +kernel, by decide +kernel, by decide +kernel, by decide +kernel,
      ?_, by decide +kernel, by decide +kernel, pairwise_singleton _ _⟩
    rintro (_ | i) e he
    · cases he
      decide +kernel
    · simp at he
  have hedges : edges p = [4080, 4088] := by decide +kernel
  let child : Nat → Nat := fun pos => if pos = 4080 then 6 else 5
  obtain ⟨-, -, hinner⟩ := @writeback_canonical _ twoFrames p child
    [⟨4079, [1], leBytes 8 (2 ^ 62 + twoFrames.frameAddr 1)⟩] (by decide +kernel)
  rw [hedges] at hinner
  obtain ⟨q, hq, hwords, -, -, hsame⟩ := hinner (by decide +kernel) hlayout (by decide) (by
    rw [forall_mem_cons, forall_mem_singleton]
    have hcool : p.readNat 4080 8 = 2 ^ 62 + twoFrames.frameAddr 1 := by decide +kernel
    have hhot : p.readNat 4088 8 = twoFrames.frameAddr 0 := by decide +kernel
    rw [hcool, hhot]
    exact ⟨.cool 1 (by decide), .hot 0 (by decide)⟩)
  refine ⟨q, hq, hsame _ ?_ ?_, hwords 4080 (by simp), hwords 4088 (by simp)⟩
  · -- a range without the two words ends before them, or lies behind one of them and is empty
    intro a b hab
    have hslot := hab 4080 (by simp)
    have hupper := hab 4088 (by simp)
    have hbefore : (twoEdges (evictedWord 6) (evictedWord 5)).bytes.take 4080 =
        p.bytes.take 4080 := by decide +kernel
    by_cases hb : b ≤ 4080
    · have := congrArg (fun l => (l.take b).drop a) hbefore
      simpa only [Page.slice, ← drop_take, take_take, Nat.min_eq_left hb] using this
    · have hempty : ∀ r : Page .k4, r.slice a b = [] := by
        intro r
        have hsize : r.bytes.length = 4096 := r.size
        rw [← length_eq_zero_iff, Page.slice, length_take, length_drop]
        omega
      rw [hempty, hempty]
  · rw [forall_mem_cons, forall_mem_singleton]
    have hslot : (twoEdges (evictedWord 6) (evictedWord 5)).readNat 4080 8 = evictedWord 6 := by
      decide +kernel
    have hupper : (twoEdges (evictedWord 6) (evictedWord 5)).readNat 4088 8 = evictedWord 5 := by
      decide +kernel
    rw [hslot, hupper]
    exact ⟨.evicted 6 (by decide), .evicted 5 (by decide)⟩

/-- A tuple page for whose type a preparer is registered is changed. -/
theorem tuplePage_changed : ∃ p q, isInnerIndexPage p = false ∧
    preparePageCopyForWriteback twoFrames p = .ok q ∧ p.bytes[64]? = some 0 ∧
      q.bytes[64]? = some 255 := by
  have htype : readPageType ((slotted (.zero .k4)).setFlags 0x0200).data = .tuple := by
    decide +kernel
  refine ⟨_, _, by rw [isInnerIndexPage, htype]; rfl,
    by rw [preparePageCopyForWriteback, htype]; rfl, ?_⟩
  exact ⟨by decide +kernel, by decide +kernel⟩

end Pagebox.Storage
