import RoaringRange.Lib.Bytes
import RoaringRange.Lib.Lru
import RoaringRange.Lib.OrdMap

/-!
# The cache of fetched ranges (`range_cache.rs`)

A cache maps a source and a range to its payload and the clock of its last use; the keys by ascending clock are its
recency.  A hit and an insertion take the next clock, and entries go by ascending clock until the payloads are within
the budget.

`StrictLru` is the cache as it is meant: a list of entries from the least to the most recently used one.

    the cache holds what strict LRU holds, in its order                            (Stamped.call)
    every run of fewer than 2 ^ 64 calls is one of strict LRU                        (rangeCache_lru)
-/

namespace RoaringRange

open ByteString

/-! ## The cache -/

/-- `range_cache::Key`. -/
structure RangeKey where
  source : String
  offset : Nat
  len : Nat
  deriving DecidableEq, Repr

/-- `range_cache::RangeCache`.  The payloads are in memory together, so their lengths add up within a `usize`; the
clock and the counters are `u64`s. -/
structure RangeCache where
  map : List (RangeKey × (Bytes × Nat))
  recency : OrdMap Nat RangeKey
  bytes : Nat
  maxBytes : Nat
  clock : Nat
  hits : Nat
  misses : Nat

namespace RangeCache

/-- `RangeCache::new`. -/
def new (maxBytes : Nat) : RangeCache := ⟨[], ∅, 0, maxBytes, 0, 0, 0⟩

/-- One pass of `RangeCache::evict_to_budget`. -/
def evictOne (c : RangeCache) (first : Nat × RangeKey) : RangeCache :=
  match Lru.find first.2 c.map with
  | some held =>
    { c with
      recency := c.recency.erase first.1
      map := Lru.without first.2 c.map
      bytes := c.bytes - held.1.length }
  | none => { c with recency := c.recency.erase first.1 }

/-- The loop of `RangeCache::evict_to_budget`, for so many passes. -/
def evictPasses : Nat → RangeCache → RangeCache
  | 0, c => c
  | n + 1, c =>
    if c.maxBytes < c.bytes then
      match c.recency.toList.head? with
      | none => c
      | some first => evictPasses n (c.evictOne first)
    else c

/-- `RangeCache::evict_to_budget`: every pass takes an entry of the recency away. -/
def evictToBudget (c : RangeCache) : RangeCache := evictPasses c.recency.len c

/-- `RangeCache::set_max_bytes`. -/
def setMaxBytes (c : RangeCache) (maxBytes : Nat) : RangeCache := evictToBudget { c with maxBytes := maxBytes }

/-- `RangeCache::get`. -/
def get (c : RangeCache) (key : RangeKey) : Option Bytes × RangeCache :=
  if c.maxBytes = 0 then (none, c)
  else
    match Lru.find key c.map with
    | some (bytes, last) =>
      let clock := (c.clock + 1) % 2 ^ 64
      (some bytes, { c with
        recency := (c.recency.erase last).update clock fun _ => key
        clock := clock
        map := (key, (bytes, clock)) :: Lru.without key c.map
        hits := (c.hits + 1) % 2 ^ 64 })
    | none => (none, { c with misses := (c.misses + 1) % 2 ^ 64 })

/-- The removal of what a key held before it is inserted. -/
def removeOld (c : RangeCache) (key : RangeKey) : RangeCache :=
  match Lru.find key c.map with
  | some (old, last) =>
    { c with map := Lru.without key c.map, bytes := c.bytes - old.length, recency := c.recency.erase last }
  | none => c

/-- `RangeCache::insert`. -/
def insert (c : RangeCache) (key : RangeKey) (bytes : Bytes) : RangeCache :=
  if c.maxBytes = 0 ∨ bytes.isEmpty = true ∨ c.maxBytes < bytes.length then c
  else
    let c := c.removeOld key
    let clock := (c.clock + 1) % 2 ^ 64
    evictToBudget { c with
      clock := clock
      bytes := c.bytes + bytes.length
      recency := c.recency.update clock fun _ => key
      map := (key, (bytes, clock)) :: c.map }

/-- The keys by ascending clock, with their payloads. -/
def held (c : RangeCache) : List (RangeKey × Bytes) :=
  c.recency.toList.filterMap fun e => (Lru.find e.2 c.map).map fun v => (e.2, v.1)

end RangeCache

/-- A call of the cache. -/
inductive CacheCall where
  | get (key : RangeKey)
  | insert (key : RangeKey) (bytes : Bytes)
  | setMaxBytes (maxBytes : Nat)

/-- One call: what a `get` answers, and the cache after it. -/
def RangeCache.call (c : RangeCache) : CacheCall → Option Bytes × RangeCache
  | .get key => c.get key
  | .insert key bytes => (none, c.insert key bytes)
  | .setMaxBytes maxBytes => (none, c.setMaxBytes maxBytes)

/-- The cache after the calls. -/
def RangeCache.after (maxBytes : Nat) (calls : List CacheCall) : RangeCache :=
  calls.foldl (fun c x => (c.call x).2) (new maxBytes)

theorem RangeCache.after_snoc (maxBytes : Nat) (calls : List CacheCall) (x : CacheCall) :
    after maxBytes (calls ++ [x]) = ((after maxBytes calls).call x).2 := by
  unfold RangeCache.after
  rw [List.foldl_append]
  rfl

/-! ## Strict LRU -/

/-- A cache of so many bytes, with its entries from the least to the most recently used one, and what happened so
far. -/
structure StrictLru where
  budget : Nat
  entries : List (RangeKey × Bytes)
  history : List (Lru.Event RangeKey Bytes)

namespace StrictLru

/-- The least recently used entries go, as many as have to. -/
def evict (l : StrictLru) : StrictLru :=
  { l with
    entries := Lru.fitted List.length l.budget l.entries
    history := l.history ++ ((Lru.overflow List.length l.budget l.entries).map Prod.fst).map Lru.Event.evicted }

/-- A payload that is not empty and fits the budget is accepted. -/
def Accepts (l : StrictLru) (bytes : Bytes) : Prop := bytes ≠ [] ∧ bytes.length ≤ l.budget

instance (l : StrictLru) (bytes : Bytes) : Decidable (l.Accepts bytes) := inferInstanceAs (Decidable (_ ∧ _))

/-- The entries after a call, before any goes. -/
def used (l : StrictLru) : CacheCall → StrictLru
  | .get key => { l with entries := Lru.touch key l.entries }
  | .insert key bytes =>
    if l.Accepts bytes then
      { l with entries := Lru.put key bytes l.entries, history := l.history ++ [.put key bytes] }
    else l
  | .setMaxBytes maxBytes => { l with budget := maxBytes }

def call (l : StrictLru) (x : CacheCall) : StrictLru := (l.used x).evict

/-- The cache after the calls. -/
def after (maxBytes : Nat) (calls : List CacheCall) : StrictLru := calls.foldl call ⟨maxBytes, [], []⟩

theorem after_snoc (maxBytes : Nat) (calls : List CacheCall) (x : CacheCall) :
    after maxBytes (calls ++ [x]) = (after maxBytes calls).call x := by
  unfold after
  rw [List.foldl_append]
  rfl

/-- The entries have distinct keys and no empty payload, and each key holds its last put that was not evicted. -/
structure Sound (l : StrictLru) : Prop where
  nodup : (l.entries.map Prod.fst).Nodup
  nonempty : ∀ e ∈ l.entries, e.2 ≠ []
  current : ∀ key, Lru.find key l.entries = Lru.current key l.history

variable {l : StrictLru}

theorem used_insert {bytes : Bytes} (h : l.Accepts bytes) (key : RangeKey) : l.used (.insert key bytes) =
    { l with entries := Lru.put key bytes l.entries, history := l.history ++ [.put key bytes] } := if_pos h

theorem used_refused {bytes : Bytes} (h : ¬ l.Accepts bytes) (key : RangeKey) : l.used (.insert key bytes) = l :=
  if_neg h

theorem Sound.evict (h : l.Sound) : l.evict.Sound where
  nodup := Lru.nodup_fitted h.nodup _
  nonempty e he := by
    refine h.nonempty e ?_
    rw [← @Lru.overflow_append_fitted _ _ List.length l.budget l.entries]
    exact List.mem_append_right _ he
  current key := by
    show Lru.find key (Lru.fitted List.length l.budget l.entries) = Lru.current key (l.history ++ _)
    rw [Lru.find_fitted h.nodup, Lru.current_evicted, h.current]

theorem Sound.used (h : l.Sound) (x : CacheCall) : (l.used x).Sound := by
  cases x with
  | get key =>
    refine ⟨Lru.nodup_touch h.nodup key, fun e he => ?_, fun j => ?_⟩
    · have hfind := (Lru.find_eq_some_iff (Lru.nodup_touch h.nodup key)).mpr he
      rw [Lru.find_touch] at hfind
      exact h.nonempty e ((Lru.find_eq_some_iff h.nodup).mp hfind)
    · show Lru.find j (Lru.touch key l.entries) = _
      rw [Lru.find_touch]
      exact h.current j
  | insert key bytes =>
    by_cases haccepts : l.Accepts bytes
    · rw [used_insert haccepts]
      refine ⟨Lru.nodup_put h.nodup key bytes, fun e he => ?_, fun j => ?_⟩
      · have hfind := (Lru.find_eq_some_iff (Lru.nodup_put h.nodup key bytes)).mpr he
        rw [Lru.find_put] at hfind
        split at hfind
        · rw [← Option.some.inj hfind]
          exact haccepts.1
        · exact h.nonempty e ((Lru.find_eq_some_iff h.nodup).mp hfind)
      · show Lru.find j (Lru.put key bytes l.entries) = Lru.current j (l.history ++ [.put key bytes])
        rw [Lru.find_put, Lru.current_put, h.current]
    · rw [used_refused haccepts]
      exact h
  | setMaxBytes maxBytes => exact ⟨h.nodup, h.nonempty, h.current⟩

theorem Sound.call (h : l.Sound) (x : CacheCall) : (l.call x).Sound := (h.used x).evict

/-- The entries fit the budget. -/
def Fits (l : StrictLru) : Prop := Lru.total List.length l.entries ≤ l.budget

theorem fits_call (l : StrictLru) (x : CacheCall) : (l.call x).Fits := Lru.total_fitted_le _ _

/-- Entries that fit all stay. -/
theorem evict_of_fits (h : l.Fits) : l.evict = l := by
  unfold Fits at h
  unfold evict
  rw [Lru.fitted_of_le h, Lru.overflow_of_le h]
  simp

theorem Fits.get (h : l.Fits) (hs : l.Sound) (key : RangeKey) : (l.used (.get key)).Fits := by
  show Lru.total List.length (Lru.touch key l.entries) ≤ l.budget
  rw [Lru.total_touch hs.nodup]
  exact h

/-- A cache of no bytes holds nothing. -/
theorem Sound.entries_nil (h : l.Sound) (hfits : l.Fits) (hz : l.budget = 0) : l.entries = [] := by
  unfold Fits at hfits
  rw [hz] at hfits
  cases hes : l.entries with
  | nil => rfl
  | cons e es =>
    rw [hes, Lru.total_cons] at hfits
    have hne := h.nonempty e (by rw [hes]; exact List.mem_cons_self)
    exact absurd (List.length_eq_zero_iff.mp (by omega)) hne

end StrictLru

/-! ## The cache is strict LRU -/

namespace RangeCache

/-- The cache holds the entries in the order of their clocks. -/
structure Stamped (c : RangeCache) (xs : List (Nat × RangeKey × Bytes)) : Prop where
  recency : c.recency.toList = xs.map fun x => (x.1, x.2.1)
  map : c.map.Perm (xs.map fun x => (x.2.1, (x.2.2, x.1)))
  nodup : (xs.map fun x => x.2.1).Nodup
  clock : ∀ x ∈ xs, x.1 ≤ c.clock
  bytes : c.bytes = Lru.total List.length (xs.map Prod.snd)

section

variable {c : RangeCache} {xs : List (Nat × RangeKey × Bytes)}

theorem Stamped.nodup_map (h : Stamped c xs) : (c.map.map Prod.fst).Nodup := by
  have hperm := h.map.map Prod.fst
  rw [List.map_map] at hperm
  exact hperm.nodup_iff.mpr h.nodup

theorem Stamped.find_eq (h : Stamped c xs) {key : RangeKey} {bytes : Bytes} {t : Nat} :
    Lru.find key c.map = some (bytes, t) ↔ (t, key, bytes) ∈ xs := by
  rw [Lru.find_eq_some_iff h.nodup_map, h.map.mem_iff, List.mem_map]
  constructor
  · rintro ⟨⟨t', key', bytes'⟩, hx, heq⟩
    obtain ⟨rfl, hval⟩ := Prod.mk.inj heq
    obtain ⟨rfl, rfl⟩ := Prod.mk.inj hval
    exact hx
  · exact fun hx => ⟨_, hx, rfl⟩

/-- What the map holds for a key is what the entries do. -/
theorem Stamped.find_entries (h : Stamped c xs) (key : RangeKey) :
    (Lru.find key c.map).map Prod.fst = Lru.find key (xs.map Prod.snd) := by
  have hnd : ((xs.map Prod.snd).map Prod.fst).Nodup := by
    rw [List.map_map]
    exact h.nodup
  cases hfind : Lru.find key c.map with
  | some v =>
    refine ((Lru.find_eq_some_iff hnd).mpr ?_).symm
    exact List.mem_map_of_mem (f := Prod.snd) (h.find_eq.mp hfind)
  | none =>
    refine (Lru.find_eq_none_iff.mpr fun hmem => ?_).symm
    obtain ⟨e, he, rfl⟩ := List.mem_map.mp hmem
    obtain ⟨x, hx, rfl⟩ := List.mem_map.mp he
    have := h.find_eq.mpr hx
    rw [hfind] at this
    cases this

theorem Stamped.held_eq (h : Stamped c xs) : c.held = xs.map Prod.snd := by
  unfold held
  rw [h.recency, List.filterMap_map, ← List.filterMap_eq_map]
  refine List.filterMap_congr fun x hx => ?_
  show (Lru.find x.2.1 c.map).map _ = some x.2
  rw [h.find_eq.mpr hx]
  rfl

/-- A key and its clock are taken out together. -/
theorem Stamped.filter_clock (h : Stamped c xs) {t : Nat} {key : RangeKey} {bytes : Bytes} (hx : (t, key, bytes) ∈ xs) :
    xs.filter (fun x => decide (x.1 ≠ t)) = xs.filter fun x => decide (x.2.1 ≠ key) := by
  have hclocks : (xs.map fun x => x.1).Nodup := by
    have hasc := c.recency.keys_nodup
    unfold OrdMap.keys at hasc
    rw [h.recency, List.map_map] at hasc
    exact hasc
  refine List.filter_congr fun x hmem => ?_
  rw [Bool.eq_iff_iff, decide_eq_true_eq, decide_eq_true_eq, not_iff_not]
  constructor
  · intro heq
    rw [List.inj_on_of_nodup_map hclocks hmem hx heq]
  · intro heq
    rw [List.inj_on_of_nodup_map h.nodup hmem hx heq]

theorem Stamped.remove (h : Stamped c xs) {t : Nat} {key : RangeKey} {bytes : Bytes} (hx : (t, key, bytes) ∈ xs) :
    Stamped { c with map := Lru.without key c.map, bytes := c.bytes - bytes.length, recency := c.recency.erase t }
      (xs.filter fun x => decide (x.2.1 ≠ key)) ∧
    (xs.filter fun x => decide (x.2.1 ≠ key)).map Prod.snd = Lru.without key (xs.map Prod.snd) ∧
    bytes.length ≤ c.bytes := by
  have hsnd : (xs.filter fun x => decide (x.2.1 ≠ key)).map Prod.snd = Lru.without key (xs.map Prod.snd) := by
    unfold Lru.without
    rw [List.filter_map]
    rfl
  have hnd : ((xs.map Prod.snd).map Prod.fst).Nodup := by
    rw [List.map_map]
    exact h.nodup
  have htotal := @Lru.total_without _ _ List.length _ _ hnd key
  rw [(Lru.find_eq_some_iff hnd).mpr (List.mem_map_of_mem (f := Prod.snd) hx)] at htotal
  have hlen : Lru.total List.length (Lru.without key (xs.map Prod.snd)) + bytes.length = c.bytes := by
    rw [h.bytes]
    exact htotal
  refine ⟨⟨?_, ?_, ?_, fun x hx => h.clock x (List.mem_of_mem_filter hx), ?_⟩, hsnd, by omega⟩
  · show c.recency.toList.filter _ = _
    rw [h.recency, List.filter_map, ← h.filter_clock hx]
    rfl
  · have hperm := h.map.filter fun e => decide (e.1 ≠ key)
    rw [List.filter_map] at hperm
    exact hperm
  · refine h.nodup.sublist ?_
    exact List.filter_sublist.map _
  · show c.bytes - bytes.length = _
    rw [hsnd]
    omega

theorem Stamped.add (h : Stamped c xs) (hclock : c.clock + 1 < 2 ^ 64) {key : RangeKey} (bytes : Bytes)
    (hnew : key ∉ xs.map fun x => x.2.1) :
    Stamped { c with
      clock := (c.clock + 1) % 2 ^ 64
      bytes := c.bytes + bytes.length
      recency := c.recency.update ((c.clock + 1) % 2 ^ 64) fun _ => key
      map := (key, (bytes, (c.clock + 1) % 2 ^ 64)) :: c.map } (xs ++ [(c.clock + 1, key, bytes)]) := by
  rw [Nat.mod_eq_of_lt hclock]
  have hlast : ∀ e ∈ c.recency.toList, e.1 < c.clock + 1 := by
    intro e he
    rw [h.recency] at he
    obtain ⟨x, hx, rfl⟩ := List.mem_map.mp he
    exact Nat.lt_succ_of_le (h.clock x hx)
  refine ⟨?_, ?_, ?_, fun x hx => ?_, ?_⟩
  · show (c.recency.update (c.clock + 1) fun _ => key).toList = _
    rw [OrdMap.toList_update_last _ hlast, h.recency, List.map_append]
    rfl
  · show ((key, (bytes, c.clock + 1)) :: c.map).Perm _
    rw [List.map_append]
    exact (h.map.cons _).trans (List.perm_append_singleton _ _).symm
  · rw [List.map_append, List.map_singleton]
    refine List.nodup_append.mpr ⟨h.nodup, List.nodup_singleton _, fun j hj i hi heq => hnew ?_⟩
    obtain rfl := List.mem_singleton.mp hi
    rwa [← heq]
  · show x.1 ≤ c.clock + 1
    rcases List.mem_append.mp hx with hx | hx
    · exact Nat.le_succ_of_le (h.clock x hx)
    · obtain rfl := List.mem_singleton.mp hx
      exact Nat.le_refl _
  · show c.bytes + bytes.length = _
    rw [List.map_append, Lru.total_append, ← h.bytes]
    rfl

/-- The passes take entries from the front until the rest fits. -/
theorem Stamped.evict (h : Stamped c xs) {n : Nat} (hn : xs.length ≤ n) : ∃ ys, Stamped (evictPasses n c) ys ∧
    ys.map Prod.snd = Lru.fitted List.length c.maxBytes (xs.map Prod.snd) ∧
    (evictPasses n c).maxBytes = c.maxBytes ∧ (evictPasses n c).clock = c.clock := by
  induction xs generalizing c n with
  | nil =>
    refine ⟨[], ?_, rfl, ?_⟩
    · cases n with
      | zero => exact h
      | succ n =>
        have hz : ¬ c.maxBytes < c.bytes := by
          rw [h.bytes]
          exact Nat.not_lt_zero _
        unfold evictPasses
        rw [if_neg hz]
        exact h
    · cases n with
      | zero => exact ⟨rfl, rfl⟩
      | succ n =>
        have hz : ¬ c.maxBytes < c.bytes := by
          rw [h.bytes]
          exact Nat.not_lt_zero _
        unfold evictPasses
        rw [if_neg hz]
        exact ⟨rfl, rfl⟩
  | cons x xs ih =>
    cases n with
    | zero => exact absurd hn (Nat.not_succ_le_zero _)
    | succ n =>
      unfold evictPasses
      rw [List.map_cons, Lru.fitted]
      by_cases hfit : c.maxBytes < c.bytes
      · have hbytes := h.bytes
        rw [List.map_cons] at hbytes
        rw [if_pos hfit, if_neg (by rw [← hbytes]; omega), h.recency]
        simp only [List.map_cons, List.head?_cons]
        obtain ⟨t, key, bytes⟩ := x
        have hstep : c.evictOne (t, key) = { c with
            map := Lru.without key c.map, bytes := c.bytes - bytes.length, recency := c.recency.erase t } := by
          unfold evictOne
          simp only [h.find_eq.mpr List.mem_cons_self]
        obtain ⟨hrest, -, -⟩ := h.remove List.mem_cons_self
        have htail : ((t, key, bytes) :: xs).filter (fun x => decide (x.2.1 ≠ key)) = xs := by
          rw [List.filter_cons, if_neg (by simp)]
          refine List.filter_eq_self.mpr fun y hy => decide_eq_true fun heq => ?_
          refine (List.nodup_cons.mp h.nodup).1 ?_
          rw [← heq]
          exact List.mem_map_of_mem (f := fun x => x.2.1) hy
        rw [htail] at hrest
        rw [hstep]
        exact ih hrest (Nat.le_of_succ_le_succ hn)
      · have hbytes := h.bytes
        rw [List.map_cons] at hbytes
        rw [if_neg hfit, if_pos (by rw [← hbytes]; omega)]
        exact ⟨x :: xs, h, rfl, rfl, rfl⟩

theorem Stamped.evictToBudget (h : Stamped c xs) : ∃ ys, Stamped c.evictToBudget ys ∧
    ys.map Prod.snd = Lru.fitted List.length c.maxBytes (xs.map Prod.snd) ∧
    c.evictToBudget.maxBytes = c.maxBytes ∧ c.evictToBudget.clock = c.clock := by
  have hlen : xs.length ≤ c.recency.len := by
    unfold OrdMap.len
    rw [h.recency, List.length_map]
  exact h.evict hlen

end

/-- The cache holds what strict LRU holds, in its order. -/
def Refines (c : RangeCache) (l : StrictLru) : Prop :=
  ∃ xs, Stamped c xs ∧ xs.map Prod.snd = l.entries ∧ c.maxBytes = l.budget

section

variable {c : RangeCache} {l : StrictLru}

theorem Refines.get (h : Refines c l) (hs : l.Sound) (hf : l.Fits) (hclock : c.clock + 1 < 2 ^ 64) (key : RangeKey) :
    (c.get key).1 = Lru.find key l.entries ∧ Refines (c.get key).2 (l.call (.get key)) ∧
      (c.get key).2.clock ≤ c.clock + 1 := by
  obtain ⟨xs, hx, hentries, hbudget⟩ := h
  have hcall : l.call (.get key) = { l with entries := Lru.touch key l.entries } := StrictLru.evict_of_fits (hf.get hs key)
  have hfind := hx.find_entries key
  rw [hentries] at hfind
  rw [hcall]
  unfold RangeCache.get
  by_cases hz : c.maxBytes = 0
  · have hnil := hs.entries_nil hf (by rw [← hbudget]; exact hz)
    rw [if_pos hz, hnil]
    refine ⟨rfl, ⟨xs, hx, ?_, hbudget⟩, Nat.le_succ _⟩
    rw [hentries, hnil]
    rfl
  rw [if_neg hz]
  cases hkey : Lru.find key c.map with
  | none =>
    rw [hkey, Option.map_none] at hfind
    refine ⟨hfind, ⟨xs, ⟨hx.recency, hx.map, hx.nodup, hx.clock, hx.bytes⟩, ?_, hbudget⟩, Nat.le_succ _⟩
    show _ = Lru.touch key l.entries
    rw [Lru.touch_eq, ← hfind]
    exact hentries
  | some v =>
    obtain ⟨bytes, last⟩ := v
    rw [hkey, Option.map_some] at hfind
    obtain ⟨hrest, hsnd, hle⟩ := hx.remove (hx.find_eq.mp hkey)
    have hnew : key ∉ (xs.filter fun x => decide (x.2.1 ≠ key)).map fun x => x.2.1 := by
      intro hmem
      obtain ⟨x, hxm, heq⟩ := List.mem_map.mp hmem
      exact of_decide_eq_true (List.mem_filter.mp hxm).2 heq
    have hadded := hrest.add hclock bytes hnew
    refine ⟨hfind, ⟨_, ⟨hadded.recency, hadded.map, hadded.nodup, hadded.clock, ?_⟩, ?_, hbudget⟩, ?_⟩
    · have hbytes := hadded.bytes
      simp only at hbytes
      rw [← hbytes]
      show c.bytes = _
      omega
    · show _ = Lru.touch key l.entries
      rw [List.map_append, hsnd, hentries, Lru.touch_eq, ← hfind]
      rfl
    · show (c.clock + 1) % 2 ^ 64 ≤ _
      exact Nat.mod_le _ _

theorem Refines.evict (h : Refines c l) : Refines c.evictToBudget l.evict ∧ c.evictToBudget.clock = c.clock := by
  obtain ⟨xs, hx, hentries, hbudget⟩ := h
  obtain ⟨ys, hy, hsnd, hmax, hclock⟩ := hx.evictToBudget
  refine ⟨⟨ys, hy, ?_, hmax.trans hbudget⟩, hclock⟩
  rw [hsnd, hentries, hbudget]
  rfl

theorem Refines.insert (h : Refines c l) (hf : l.Fits) (hclock : c.clock + 1 < 2 ^ 64) (key : RangeKey) (bytes : Bytes) :
    Refines (c.insert key bytes) (l.call (.insert key bytes)) ∧ (c.insert key bytes).clock ≤ c.clock + 1 := by
  obtain ⟨xs, hx, hentries, hbudget⟩ := h
  have haccepts : (c.maxBytes = 0 ∨ bytes.isEmpty = true ∨ c.maxBytes < bytes.length) ↔ ¬ l.Accepts bytes := by
    unfold StrictLru.Accepts
    rw [← hbudget, List.isEmpty_iff]
    have hlen : bytes = [] ↔ bytes.length = 0 := List.length_eq_zero_iff.symm
    rw [ne_eq, hlen]
    omega
  unfold RangeCache.insert StrictLru.call
  by_cases hok : l.Accepts bytes
  · rw [if_neg (fun hbad => haccepts.mp hbad hok), StrictLru.used_insert hok]
    simp only
    -- what the key held goes first
    obtain ⟨ys, hy, hsnd, hnew, hc, hmax⟩ : ∃ ys, Stamped (c.removeOld key) ys ∧
        ys.map Prod.snd = Lru.without key l.entries ∧ (key ∉ ys.map fun x => x.2.1) ∧
        (c.removeOld key).clock = c.clock ∧ (c.removeOld key).maxBytes = c.maxBytes := by
      unfold removeOld
      cases hkey : Lru.find key c.map with
      | some v =>
        obtain ⟨old, last⟩ := v
        obtain ⟨hrest, hsnd, -⟩ := hx.remove (hx.find_eq.mp hkey)
        refine ⟨_, hrest, by rw [hsnd, hentries], fun hmem => ?_, rfl, rfl⟩
        obtain ⟨x, hxm, heq⟩ := List.mem_map.mp hmem
        exact of_decide_eq_true (List.mem_filter.mp hxm).2 heq
      | none =>
        have hfind := hx.find_entries key
        rw [hkey, Option.map_none, hentries] at hfind
        have hnot := Lru.find_eq_none_iff.mp hfind.symm
        refine ⟨xs, hx, by rw [hentries, Lru.without_of_not_mem hnot], ?_, rfl, rfl⟩
        rw [← hentries, List.map_map] at hnot
        exact hnot
    have hadded := hy.add (by rw [hc]; exact hclock) bytes hnew
    have hrefines : Refines { c.removeOld key with
        clock := ((c.removeOld key).clock + 1) % 2 ^ 64
        bytes := (c.removeOld key).bytes + bytes.length
        recency := (c.removeOld key).recency.update (((c.removeOld key).clock + 1) % 2 ^ 64) fun _ => key
        map := (key, (bytes, ((c.removeOld key).clock + 1) % 2 ^ 64)) :: (c.removeOld key).map }
        { l with entries := Lru.put key bytes l.entries, history := l.history ++ [.put key bytes] } := by
      refine ⟨_, hadded, ?_, hmax.trans hbudget⟩
      rw [List.map_append, hsnd]
      rfl
    obtain ⟨hev, hclk⟩ := hrefines.evict
    refine ⟨hev, ?_⟩
    rw [hclk]
    show ((c.removeOld key).clock + 1) % 2 ^ 64 ≤ _
    rw [hc]
    exact Nat.mod_le _ _
  · rw [if_pos (haccepts.mpr hok), StrictLru.used_refused hok, StrictLru.evict_of_fits hf]
    exact ⟨⟨xs, hx, hentries, hbudget⟩, Nat.le_succ _⟩

/-- **A call of the cache is one of strict LRU.** -/
theorem Refines.call (h : Refines c l) (hs : l.Sound) (hf : l.Fits) (hclock : c.clock + 1 < 2 ^ 64) (x : CacheCall) :
    Refines (c.call x).2 (l.call x) ∧ (c.call x).2.clock ≤ c.clock + 1 := by
  cases x with
  | get key => exact (h.get hs hf hclock key).2
  | insert key bytes => exact h.insert hf hclock key bytes
  | setMaxBytes maxBytes =>
    obtain ⟨xs, hx, hentries, -⟩ := h
    have hrefines : Refines { c with maxBytes := maxBytes } { l with budget := maxBytes } :=
      ⟨xs, ⟨hx.recency, hx.map, hx.nodup, hx.clock, hx.bytes⟩, hentries, rfl⟩
    obtain ⟨hev, hclk⟩ := hrefines.evict
    exact ⟨hev, Nat.le_trans (Nat.le_of_eq hclk) (Nat.le_succ _)⟩

theorem refines_new (maxBytes : Nat) : Refines (new maxBytes) ⟨maxBytes, [], []⟩ :=
  ⟨[], ⟨rfl, List.Perm.nil, List.nodup_nil, fun _ hx => absurd hx List.not_mem_nil, rfl⟩, rfl, rfl⟩

end

/-- A run of the cache: it holds what strict LRU holds after the calls. -/
theorem refines_after (maxBytes : Nat) {calls : List CacheCall} (h : calls.length < 2 ^ 64) :
    Refines (after maxBytes calls) (StrictLru.after maxBytes calls) ∧ (StrictLru.after maxBytes calls).Sound ∧
      (StrictLru.after maxBytes calls).Fits ∧ (after maxBytes calls).clock ≤ calls.length := by
  induction calls using List.reverseRecOn with
  | nil =>
    refine ⟨refines_new maxBytes, ⟨List.nodup_nil, fun e he => absurd he List.not_mem_nil, fun _ => rfl⟩,
      Nat.zero_le _, Nat.le_refl _⟩
  | append_singleton calls x ih =>
    rw [List.length_append, List.length_singleton] at h ⊢
    obtain ⟨hrefines, hsound, hfits, hclock⟩ := ih (Nat.lt_of_succ_lt h)
    obtain ⟨hrefines', hclock'⟩ := hrefines.call hsound hfits (by omega) x
    rw [after_snoc, StrictLru.after_snoc]
    exact ⟨hrefines', hsound.call x, StrictLru.fits_call _ x, Nat.le_trans hclock' (Nat.succ_le_succ hclock)⟩

end RangeCache

/-- The cache after the calls is what strict LRU is. -/
structure StrictlyLru (maxBytes : Nat) (calls : List CacheCall) : Prop where
  /-- The counter is the sum of the payloads, within the budget. -/
  bytes : (RangeCache.after maxBytes calls).bytes =
      Lru.total (fun v => v.1.length) (RangeCache.after maxBytes calls).map ∧
    (RangeCache.after maxBytes calls).bytes ≤ (RangeCache.after maxBytes calls).maxBytes
  /-- The map and the recency have the same keys, once each. -/
  keys : (RangeCache.after maxBytes calls).recency.values.Perm ((RangeCache.after maxBytes calls).map.map Prod.fst) ∧
    (RangeCache.after maxBytes calls).recency.values.Nodup
  held : (RangeCache.after maxBytes calls).held = (StrictLru.after maxBytes calls).entries
  /-- The last call let the least recently used entries go, no more than it had to. -/
  evicts : ∀ before x, calls = before ++ [x] → ∃ gone,
    ((StrictLru.after maxBytes before).used x).entries = gone ++ (RangeCache.after maxBytes calls).held ∧
    ∀ gone' left, ((StrictLru.after maxBytes before).used x).entries = gone' ++ left →
      Lru.total List.length left ≤ (RangeCache.after maxBytes calls).maxBytes → gone.length ≤ gone'.length
  /-- A `get` answers with the last payload that was put for the key and not evicted since. -/
  get : ∀ key, ((RangeCache.after maxBytes calls).get key).1 =
    Lru.current key (StrictLru.after maxBytes calls).history

/-- **The cache is strict LRU** in every run of fewer than `2 ^ 64` calls. -/
theorem rangeCache_lru (maxBytes : Nat) (calls : List CacheCall) (h : calls.length < 2 ^ 64) :
    StrictlyLru maxBytes calls := by
  obtain ⟨hrefines, hsound, hfits, -⟩ := RangeCache.refines_after maxBytes h
  obtain ⟨xs, hx, hentries, hbudget⟩ := hrefines
  have hvalues : (RangeCache.after maxBytes calls).recency.values = xs.map fun x => x.2.1 := by
    unfold OrdMap.values
    rw [hx.recency, List.map_map]
    rfl
  have hheld := hx.held_eq.trans hentries
  refine ⟨⟨?_, ?_⟩, ⟨?_, ?_⟩, hheld, fun before x hcalls => ?_, fun key => ?_⟩
  · rw [hx.bytes, Lru.total_perm hx.map]
    clear hx hentries hvalues hheld
    induction xs with
    | nil => rfl
    | cons x xs ih =>
      rw [List.map_cons, List.map_cons, Lru.total_cons, Lru.total_cons, ih]
  · rw [hx.bytes, hentries, hbudget]
    exact hfits
  · rw [hvalues]
    have hperm := hx.map.map Prod.fst
    rw [List.map_map] at hperm
    exact hperm.symm
  · rw [hvalues]
    exact hx.nodup
  · have hlast : StrictLru.after maxBytes calls = ((StrictLru.after maxBytes before).used x).evict := by
      rw [hcalls, StrictLru.after_snoc]
      rfl
    refine ⟨Lru.overflow List.length ((StrictLru.after maxBytes before).used x).budget
      ((StrictLru.after maxBytes before).used x).entries, ?_, fun gone' left hsplit hleft => ?_⟩
    · rw [hheld, hlast]
      exact (Lru.overflow_append_fitted _ _).symm
    · refine Lru.overflow_le hsplit ?_
      rw [hbudget, hlast] at hleft
      exact hleft
  · rw [← hsound.current, ← hentries, ← hx.find_entries]
    unfold RangeCache.get
    split
    · next hz =>
      have hnil := hsound.entries_nil hfits (by rw [← hbudget]; exact hz)
      rw [hx.find_entries, hentries, hnil]
      rfl
    · cases Lru.find key (RangeCache.after maxBytes calls).map <;> rfl

/-! ## A clock that has wrapped -/

namespace RangeCache

def firstKey : RangeKey := ⟨"u", 0, 1⟩

def secondKey : RangeKey := ⟨"u", 1, 1⟩

def thirdKey : RangeKey := ⟨"u", 2, 1⟩

theorem rangeCache_lru_evicts : StrictlyLru 2
    [.insert firstKey [7], .insert secondKey [8], .get firstKey, .insert thirdKey [9]] :=
  rangeCache_lru 2 _ (by decide)

/-- A cache of one entry, last used at `clock`. -/
def lone (clock hits : Nat) : RangeCache :=
  ⟨[(firstKey, ([7], clock))], (∅ : OrdMap Nat RangeKey).update clock fun _ => firstKey, 1, 2, clock, hits, 0⟩

theorem get_lone {clock : Nat} (h : clock + 1 < 2 ^ 64) (hits : Nat) :
    ((lone clock hits).call (.get firstKey)).2 = lone (clock + 1) ((hits + 1) % 2 ^ 64) := by
  have herase : ((∅ : OrdMap Nat RangeKey).update clock fun _ => firstKey).erase clock = ∅ := by
    unfold OrdMap.erase
    congr 1
    show [(clock, firstKey)].filter _ = []
    simp
  show ((lone clock hits).get firstKey).2 = _
  unfold RangeCache.get lone
  rw [if_neg (show 2 ≠ 0 by decide)]
  simp only [Lru.find, if_true, Nat.mod_eq_of_lt h, herase]
  rfl

/-- One key is inserted, and read `n` times. -/
def readCalls (n : Nat) : List CacheCall := .insert firstKey [7] :: List.replicate n (.get firstKey)

theorem after_reads (n : Nat) (h : n + 1 < 2 ^ 64) : after 2 (readCalls n) = lone (n + 1) n := by
  induction n with
  | zero => rfl
  | succ n ih =>
    have hsnoc : readCalls (n + 1) = readCalls n ++ [.get firstKey] := by
      unfold readCalls
      rw [List.replicate_succ', List.cons_append]
    rw [hsnoc, after_snoc, ih (by omega), get_lone (by omega), Nat.mod_eq_of_lt (by omega)]

theorem strictLru_after_reads (n : Nat) :
    StrictLru.after 2 (readCalls n) = ⟨2, [(firstKey, [7])], [.put firstKey [7]]⟩ := by
  induction n with
  | zero => rfl
  | succ n ih =>
    have hsnoc : readCalls (n + 1) = readCalls n ++ [.get firstKey] := by
      unfold readCalls
      rw [List.replicate_succ', List.cons_append]
    rw [hsnoc, StrictLru.after_snoc, ih]
    rfl

/-- One key is inserted and read until the clock is at its end; then two more come. -/
def wornCalls : List CacheCall := (readCalls (2 ^ 64 - 2) ++ [.insert secondKey [8]]) ++ [.insert thirdKey [9]]

/-- The second key comes at clock 0, and goes before the first one, which was used before it. -/
theorem youngest_evicted : ¬ StrictlyLru 2 wornCalls := by
  intro h
  have hget := h.get secondKey
  unfold wornCalls at hget
  rw [after_snoc, after_snoc, after_reads _ (by decide), StrictLru.after_snoc, StrictLru.after_snoc,
    strictLru_after_reads] at hget
  have hanswer : ((((lone (2 ^ 64 - 2 + 1) (2 ^ 64 - 2)).call (.insert secondKey [8])).2.call
      (.insert thirdKey [9])).2.get secondKey).1 = none := by decide +kernel
  rw [hanswer] at hget
  cases hget

end RangeCache

end RoaringRange
