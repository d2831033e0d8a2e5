import Byze.CoinsCache

/-! A cache over a view: its flags say the truth about the view below, and writing
its entries down changes that view, but not what the cache shows. -/

namespace Byze
open ExceptEq MapTotal FreshDirty CCoinsCacheEntry

def Coin.unspent (coin : Coin) : Option Coin := if coin.isSpent then none else some coin

def CCoinsCacheEntry.cell (entry : CCoinsCacheEntry) : Entry Coin :=
  ⟨entry.coin.unspent, entry.isDirty, entry.isFresh⟩

def CCoinsCacheEntry.attr (entry : CCoinsCacheEntry) : Nat :=
  (if entry.isDirty then 1 else 0) + (if entry.isFresh then 2 else 0) + (if entry.coin.isSpent then 4 else 0)

@[simp] theorem Coin.isSpent_null : Coin.null.isSpent = true := rfl
@[simp] theorem Coin.unspent_null : Coin.null.unspent = none := rfl

theorem Coin.isNone_unspent (coin : Coin) : coin.unspent.isNone = coin.isSpent := by
  cases hspent : coin.isSpent <;> simp [unspent, hspent]

theorem Coin.isSome_unspent (coin : Coin) : coin.unspent.isSome = !coin.isSpent := by
  cases hspent : coin.isSpent <;> simp [unspent, hspent]

theorem Coin.unspent_of_not_spent {coin : Coin} (h : coin.isSpent = false) :
    coin.unspent = some coin := by simp [unspent, h]

theorem CCoinsCacheEntry.attr_of_documented {entry : CCoinsCacheEntry} (h : entry.cell.Documented) :
    entry.attr ≠ 2 ∧ entry.attr ≠ 4 ∧ entry.attr ≠ 7 := by
  rw [Entry.Documented, cell, Coin.isSome_unspent] at h
  cases hdirty : entry.isDirty <;> cases hfresh : entry.isFresh <;>
    cases hspent : entry.coin.isSpent <;> simp_all [attr]

def Coin.Cleared (coin : Coin) : Prop := coin.isSpent = true → coin.out.scriptPubKey = []

section
variable (mem : ScriptUsage)

/-- What `SanityCheck` asserts of the links and the usage. -/
structure CCoinsViewCache.Accounted (cache : CCoinsViewCache) : Prop where
  nodup : cache.flagged.Nodup
  linked : ∀ o, o ∈ cache.flagged ↔ ∃ entry, cache.cacheCoins.lookup o = some entry ∧ entry.isFlagged = true
  usage : cache.cachedCoinsUsage =
    total (fun entry : CCoinsCacheEntry => entry.coin.dynamicMemoryUsage mem) cache.cacheCoins

/-- The entries say the truth about the view below. -/
structure CCoinsViewCache.Sound (below : COutPoint → Option Coin) (cache : CCoinsViewCache) : Prop
    extends Accounted mem cache where
  sound : ∀ o entry, cache.cacheCoins.lookup o = some entry → entry.cell.Sound (below o)
  cleared : Holds (fun entry => entry.coin.Cleared) cache.cacheCoins

variable {mem}

theorem Coin.dynamicMemoryUsage_of_spent {coin : Coin} (hcleared : coin.Cleared)
    (hspent : coin.isSpent = true) : coin.dynamicMemoryUsage mem = 0 := by
  simp [dynamicMemoryUsage, hcleared hspent, mem.usage_nil]

namespace CCoinsViewCache
variable {cache : CCoinsViewCache} {o : COutPoint}

theorem put_lookup (coin : Coin) (dirty fresh : Bool) (o' : COutPoint) :
    (cache.put mem o coin dirty fresh).cacheCoins.lookup o' =
      if o' = o then some ⟨coin, ((cache.cacheCoins.lookup o).getD .new).isDirty || dirty,
        ((cache.cacheCoins.lookup o).getD .new).isFresh || fresh⟩
      else cache.cacheCoins.lookup o' :=
  lookup_insert_eq _ _ _ _

theorem erase_lookup (o' : COutPoint) : (cache.erase mem o).cacheCoins.lookup o' =
      if o' = o then none else cache.cacheCoins.lookup o' :=
  lookup_erase_eq _ _ _

variable {entry : CCoinsCacheEntry}

theorem setClean_lookup (hentry : cache.cacheCoins.lookup o = some entry) (o' : COutPoint) :
    (cache.setClean o).cacheCoins.lookup o' =
      if o' = o then some ⟨entry.coin, false, false⟩ else cache.cacheCoins.lookup o' := by
  rw [setClean, hentry]
  exact lookup_insert_eq _ _ _ _

theorem setClean_flagged (hentry : cache.cacheCoins.lookup o = some entry) :
    (cache.setClean o).flagged = cache.flagged.filter (· ≠ o) := by
  rw [setClean, hentry]

theorem Accounted.mem_flagged (h : cache.Accounted mem) :
    o ∈ cache.flagged ↔ ((cache.cacheCoins.lookup o).getD .new).isFlagged = true := by
  rw [h.linked]
  cases cache.cacheCoins.lookup o with
  | none => simp [CCoinsCacheEntry.new, isFlagged]
  | some entry => simp

theorem Accounted.put (h : cache.Accounted mem) (o : COutPoint) (coin : Coin) (dirty fresh : Bool) :
    (cache.put mem o coin dirty fresh).Accounted mem := by
  have hold : ((cache.cacheCoins.lookup o).map fun entry : CCoinsCacheEntry =>
      entry.coin.dynamicMemoryUsage mem).getD 0 =
        ((cache.cacheCoins.lookup o).getD .new).coin.dynamicMemoryUsage mem := by
    cases cache.cacheCoins.lookup o with
    | none => simp [CCoinsCacheEntry.new, Coin.dynamicMemoryUsage, Coin.null, mem.usage_nil]
    | some entry => rfl
  have hflagged := @Accounted.mem_flagged _ _ o h
  refine ⟨?_, fun o' => ?_, ?_⟩
  · simp only [CCoinsViewCache.put]
    split
    case isTrue hnew =>
      have hnot : o ∉ cache.flagged := by
        rw [hflagged]
        simpa using (Bool.and_eq_true_iff.mp hnew).1
      exact List.nodup_append.mpr ⟨h.nodup, List.nodup_singleton o, by
        intro a ha b hb
        rw [List.mem_singleton.mp hb]
        exact fun he => hnot (he ▸ ha)⟩
    case isFalse => exact h.nodup
  · rw [put_lookup]
    by_cases heq : o' = o
    · subst heq
      simp only [if_true, Option.some.injEq, exists_eq_left', CCoinsViewCache.put]
      generalize (cache.cacheCoins.lookup o').getD .new = old at *
      split
      case isTrue hnew =>
        simp only [isFlagged, List.mem_append, List.mem_singleton, or_true, true_iff]
        cases dirty <;> cases fresh <;> simp_all
      case isFalse hnot =>
        cases hd : old.isDirty <;> cases hf : old.isFresh <;> cases dirty <;> cases fresh <;>
          simp_all [isFlagged]
    · rw [if_neg heq, ← h.linked]
      simp only [CCoinsViewCache.put]
      split <;> simp [heq]
  · simp only [CCoinsViewCache.put, total_insert, total_erase, hold, h.usage]
    omega

theorem Accounted.erase (h : cache.Accounted mem) (o : COutPoint) : (cache.erase mem o).Accounted mem := by
  refine ⟨h.nodup.filter _, fun o' => ?_, ?_⟩
  · rw [erase_lookup]
    by_cases heq : o' = o
    · simp [CCoinsViewCache.erase, heq]
    · simp [CCoinsViewCache.erase, heq, h.linked]
  · simp only [CCoinsViewCache.erase]
    rw [total_erase, h.usage]

theorem Accounted.setClean (h : cache.Accounted mem)
    (hentry : cache.cacheCoins.lookup o = some entry) : (cache.setClean o).Accounted mem := by
  refine ⟨?_, fun o' => ?_, ?_⟩
  · rw [setClean_flagged hentry]
    exact h.nodup.filter _
  · rw [setClean_flagged hentry, setClean_lookup hentry]
    by_cases heq : o' = o
    · simp [heq, isFlagged]
    · simp [heq, h.linked]
  · rw [CCoinsViewCache.setClean, hentry]
    rw [total_insert, total_erase, hentry, h.usage]
    simp only [Option.map_some, Option.getD_some]
    omega

theorem accounted_clear (cache : CCoinsViewCache) : cache.clear.Accounted mem :=
  ⟨List.nodup_nil, fun o => by simp [clear], rfl⟩

def shows (below : COutPoint → Option Coin) (cache : CCoinsViewCache) (o : COutPoint) : Option Coin :=
  see ((cache.cacheCoins.lookup o).map cell) (below o)

variable {below : COutPoint → Option Coin}

theorem shows_of_none (h : cache.cacheCoins.lookup o = none) : cache.shows below o = below o := by
  rw [shows, h]
  rfl

theorem shows_of_some (h : cache.cacheCoins.lookup o = some entry) :
    cache.shows below o = entry.coin.unspent := by
  rw [shows, h]
  rfl

theorem shows_put (coin : Coin) (dirty fresh : Bool) : (cache.put mem o coin dirty fresh).shows below =
      Function.update (cache.shows below) o coin.unspent := by
  funext o'
  by_cases heq : o' = o
  · subst heq
    rw [Function.update_self, shows, put_lookup, if_pos rfl]
    rfl
  · rw [Function.update_of_ne heq, shows, put_lookup, if_neg heq]
    rfl

theorem shows_erase : (cache.erase mem o).shows below = Function.update (cache.shows below) o (below o) := by
  funext o'
  by_cases heq : o' = o
  · subst heq
    rw [Function.update_self, shows, erase_lookup, if_pos rfl]
    rfl
  · rw [Function.update_of_ne heq, shows, erase_lookup, if_neg heq]
    rfl

theorem Sound.erase (h : cache.Sound mem below) (o : COutPoint) : (cache.erase mem o).Sound mem below where
  toAccounted := h.toAccounted.erase o
  sound o' entry hentry := by
    rw [erase_lookup] at hentry
    split at hentry
    · cases hentry
    · exact h.sound o' entry hentry
  cleared := h.cleared.erase o

theorem Sound.put (h : cache.Sound mem below) {coin : Coin} {dirty fresh : Bool}
    (hentry : Entry.Sound (below o) ⟨coin.unspent, ((cache.cacheCoins.lookup o).getD .new).isDirty || dirty,
      ((cache.cacheCoins.lookup o).getD .new).isFresh || fresh⟩) (hcleared : coin.Cleared) :
    (cache.put mem o coin dirty fresh).Sound mem below where
  toAccounted := h.toAccounted.put o coin dirty fresh
  sound o' entry hlookup := by
    rw [put_lookup] at hlookup
    split at hlookup
    case isTrue heq =>
      cases hlookup
      rw [heq]
      exact hentry
    case isFalse => exact h.sound o' entry hlookup
  cleared := h.cleared.insert o hcleared

theorem sound_clear (cache : CCoinsViewCache) : cache.clear.Sound mem below where
  toAccounted := accounted_clear cache
  sound o entry hentry := by simp [clear] at hentry
  cleared := holds_empty

theorem shows_clear (cache : CCoinsViewCache) : cache.clear.shows below = below := by
  funext o
  exact shows_of_none (by simp [clear])

theorem Sound.shows_of_unflagged (h : cache.Sound mem below)
    (hentry : cache.cacheCoins.lookup o = some entry) (hflags : entry.isFlagged = false) :
    cache.shows below o = below o := by
  rw [shows_of_some hentry]
  exact (h.sound o entry hentry).clean_below (Bool.or_eq_false_iff.mp hflags).1

theorem Sound.writeEntry (h : cache.Sound mem below)
    (hentry : entry.cell.Sound (cache.shows below o)) (hcleared : entry.coin.Cleared) :
    ∃ us, cache.writeEntry mem o entry = .ok us ∧ us.Sound mem below ∧
      us.shows below = Function.update (cache.shows below) o entry.coin.unspent := by
  cases hdirty : entry.isDirty with
  | false =>
    have hsame : entry.coin.unspent = cache.shows below o := hentry.clean_below hdirty
    refine ⟨cache, by simp [CCoinsViewCache.writeEntry, hdirty], h, ?_⟩
    simp [hsame]
  | true =>
    have hcell : ∀ ours ∈ (cache.cacheCoins.lookup o).map cell, ours.Sound (below o) := by
      intro ours hours
      obtain ⟨entry', hentry', rfl⟩ := Option.mem_map.mp hours
      exact h.sound o entry' hentry'
    have hshows := see_writeBack hentry hcell
    have hsound := sound_writeBack hentry hcell
    cases hlookup : cache.cacheCoins.lookup o with
    | none =>
      rw [hlookup, Option.map_none, writeBack] at hshows hsound
      simp only [cell, Coin.isNone_unspent] at hshows hsound
      cases hgone : entry.isFresh && entry.coin.isSpent with
      | true =>
        rw [hgone, if_pos rfl] at hshows
        refine ⟨cache, by simp [CCoinsViewCache.writeEntry, hlookup, hgone], h, ?_⟩
        have hbelow : cache.shows below o = below o := shows_of_none hlookup
        simp [← hshows, see_none, ← hbelow]
      | false =>
        rw [hgone] at hsound
        refine ⟨cache.put mem o entry.coin true entry.isFresh,
          by simp [CCoinsViewCache.writeEntry, hdirty, hlookup, hgone], ?_, shows_put _ _ _⟩
        refine h.put ?_ hcleared
        rw [hlookup]
        exact hsound _ rfl
    | some ours =>
      have happlied : (entry.isFresh && !ours.coin.isSpent) = false := by
        rw [shows, hlookup] at hentry
        have := not_misapplied hentry
        rwa [misapplied, cell, cell, Coin.isSome_unspent] at this
      rw [hlookup, Option.map_some, writeBack] at hshows hsound
      simp only [cell, Coin.isNone_unspent] at hshows hsound
      cases hgone : ours.isFresh && entry.coin.isSpent with
      | true =>
        rw [hgone, if_pos rfl] at hshows
        refine ⟨cache.erase mem o,
          by simp [CCoinsViewCache.writeEntry, hdirty, hlookup, happlied, hgone], h.erase o, ?_⟩
        simp [shows_erase, ← hshows]
      | false =>
        rw [hgone] at hsound
        refine ⟨cache.put mem o entry.coin true false,
          by simp [CCoinsViewCache.writeEntry, hdirty, hlookup, happlied, hgone], ?_,
          shows_put _ _ _⟩
        refine h.put ?_ hcleared
        rw [hlookup]
        simpa using hsound _ rfl

section
variable {σ : Type} {write : σ → COutPoint → CCoinsCacheEntry → Except CoinsError σ}
  {Good : σ → Prop} {seen : σ → COutPoint → Option Coin}

def Writes (Good : σ → Prop) (seen : σ → COutPoint → Option Coin)
    (write : σ → COutPoint → CCoinsCacheEntry → Except CoinsError σ) : Prop :=
  ∀ us o entry, Good us → entry.cell.Sound (seen us o) → entry.coin.Cleared →
    ∃ us', write us o entry = .ok us' ∧ Good us' ∧ seen us' = Function.update (seen us) o entry.coin.unspent

theorem nextAndMaybeErase_sync {view : COutPoint → Option Coin} {entry : CCoinsCacheEntry}
    (h : cache.Sound mem view) (hentry : cache.cacheCoins.lookup o = some entry) :
    ∃ cache', cache.nextAndMaybeErase mem o false entry = .ok cache' ∧
      cache'.Sound mem (Function.update view o entry.coin.unspent) ∧
      cache'.shows (Function.update view o entry.coin.unspent) = cache.shows view ∧
      cache'.flagged = cache.flagged.filter (· ≠ o) := by
  have hne : ∀ o', o' ≠ o → Function.update view o entry.coin.unspent o' = view o' :=
    fun o' hne => Function.update_of_ne hne _ _
  have hcleared := h.cleared o entry hentry
  cases hspent : entry.coin.isSpent with
  | true =>
    refine ⟨cache.erase mem o, ?_, ⟨h.toAccounted.erase o, ?_, h.cleared.erase o⟩, ?_, rfl⟩
    · simp [nextAndMaybeErase, hspent, Coin.dynamicMemoryUsage_of_spent hcleared hspent]
    · intro o' entry' hlookup
      rw [erase_lookup] at hlookup
      split at hlookup
      · cases hlookup
      case isFalse heq =>
        rw [hne o' heq]
        exact h.sound o' entry' hlookup
    · funext o'
      rw [shows_erase]
      by_cases heq : o' = o
      · simp [heq, shows_of_some hentry]
      · rw [Function.update_of_ne heq, shows, hne o' heq]
        rfl
  | false =>
    refine ⟨cache.setClean o, by simp [nextAndMaybeErase, hspent],
      ⟨h.toAccounted.setClean hentry, ?_, ?_⟩, ?_, setClean_flagged hentry⟩
    · intro o' entry' hlookup
      rw [setClean_lookup hentry] at hlookup
      split at hlookup
      case isTrue heq =>
        cases hlookup
        rw [heq, Function.update_self, cell, Coin.unspent_of_not_spent hspent]
        exact sound_clean _
      case isFalse heq =>
        rw [hne o' heq]
        exact h.sound o' entry' hlookup
    · intro o' entry' hlookup
      rw [setClean_lookup hentry] at hlookup
      split at hlookup
      · cases hlookup
        exact hcleared
      · exact h.cleared o' entry' hlookup
    · funext o'
      rw [shows, setClean_lookup hentry]
      by_cases heq : o' = o
      · rw [if_pos heq, heq, shows_of_some hentry]
        rfl
      · rw [if_neg heq, hne o' heq]
        rfl

theorem writeFlagged_sync (hwrites : Writes Good seen write) {flagged : List COutPoint} {us : σ}
    (hus : Good us) (h : cache.Sound mem (seen us)) :
    ∃ cache' us', writeFlagged mem write false flagged cache us = .ok (cache', us') ∧ Good us' ∧
      cache'.Sound mem (seen us') ∧ cache'.shows (seen us') = cache.shows (seen us) ∧
      cache'.flagged = cache.flagged.filter (· ∉ flagged) := by
  induction flagged generalizing cache us with
  | nil => exact ⟨cache, us, rfl, hus, h, rfl, by simp⟩
  | cons o flagged ih =>
    cases hentry : cache.cacheCoins.lookup o with
    | none =>
      obtain ⟨cache', us', hok, hus', hsound, hshows, hflagged⟩ := ih hus h
      refine ⟨cache', us', by simpa [writeFlagged, hentry] using hok, hus', hsound, hshows, ?_⟩
      have hnot : o ∉ cache.flagged := by
        rw [h.mem_flagged, hentry]
        simp [CCoinsCacheEntry.new, isFlagged]
      rw [hflagged]
      refine List.filter_congr fun o' hmem => ?_
      have hne : o' ≠ o := fun he => hnot (he ▸ hmem)
      simp [hne]
    | some entry =>
      obtain ⟨us₁, hwrite, hus₁, hseen⟩ := hwrites us o entry hus (h.sound o entry hentry)
        (h.cleared o entry hentry)
      obtain ⟨cache₁, hnext, hsound₁, hshows₁, hflagged₁⟩ := nextAndMaybeErase_sync h hentry
      rw [← hseen] at hsound₁ hshows₁
      obtain ⟨cache', us', hok, hus', hsound, hshows, hflagged⟩ := ih hus₁ hsound₁
      refine ⟨cache', us', by simpa [writeFlagged, hentry, hwrite, hnext] using hok, hus', hsound,
        hshows.trans hshows₁, ?_⟩
      rw [hflagged, hflagged₁, List.filter_filter]
      refine List.filter_congr fun o' _ => ?_
      simp [Bool.and_comm]

theorem writeFlagged_flush (hwrites : Writes Good seen write) {flagged : List COutPoint} {us : σ}
    (hus : Good us) (hnodup : flagged.Nodup)
    (hsound : ∀ o ∈ flagged, ∀ entry, cache.cacheCoins.lookup o = some entry → entry.cell.Sound (seen us o))
    (hcleared : Holds (fun entry => entry.coin.Cleared) cache.cacheCoins) :
    ∃ us', writeFlagged mem write true flagged cache us = .ok (cache, us') ∧ Good us' ∧
      ∀ o, seen us' o = if o ∈ flagged then cache.shows (seen us) o else seen us o := by
  induction flagged generalizing us with
  | nil => exact ⟨us, rfl, hus, fun o => by simp⟩
  | cons o flagged ih =>
    obtain ⟨hnotMem, hnodup⟩ := List.nodup_cons.mp hnodup
    cases hentry : cache.cacheCoins.lookup o with
    | none =>
      obtain ⟨us', hok, hus', hseen⟩ := ih hus hnodup
        fun o' hmem => hsound o' (List.mem_cons_of_mem _ hmem)
      refine ⟨us', by simpa [writeFlagged, hentry] using hok, hus', fun o' => ?_⟩
      rw [hseen]
      by_cases heq : o' = o
      · subst heq
        simp [shows_of_none hentry]
      · simp [heq]
    | some entry =>
      obtain ⟨us₁, hwrite, hus₁, hseen₁⟩ := hwrites us o entry hus
        (hsound o List.mem_cons_self entry hentry) (hcleared o entry hentry)
      have hother : ∀ o', o' ≠ o → seen us₁ o' = seen us o' := by
        intro o' hne
        rw [hseen₁, Function.update_of_ne hne]
      obtain ⟨us', hok, hus', hseen⟩ := ih hus₁ hnodup fun o' hmem entry' hentry' => by
        rw [hother o' fun he => hnotMem (he ▸ hmem)]
        exact hsound o' (List.mem_cons_of_mem _ hmem) entry' hentry'
      refine ⟨us', by simpa [writeFlagged, hentry, hwrite, nextAndMaybeErase] using hok, hus',
        fun o' => ?_⟩
      rw [hseen]
      by_cases heq : o' = o
      · subst heq
        simp [hseen₁, shows_of_some hentry]
      · rw [shows, hother o' heq]
        simp [heq, shows]

theorem writeDown_sound (hwrites : Writes Good seen write) {us : σ} (hus : Good us)
    (h : cache.Sound mem (seen us)) (willErase : Bool) :
    ∃ cache' us', cache.writeDown mem write willErase us = .ok (cache', us') ∧ Good us' ∧
      cache'.Sound mem (seen us') ∧ cache'.shows (seen us') = cache.shows (seen us) := by
  cases willErase with
  | false =>
    obtain ⟨cache', us', hok, hus', hsound, hshows, hflagged⟩ :=
      @writeFlagged_sync _ _ _ _ _ _ hwrites cache.flagged _ hus h
    have hnone : cache'.flagged = [] := by
      rw [hflagged, List.filter_eq_nil_iff]
      intro o hmem
      simpa using hmem
    exact ⟨cache', us', by simp [writeDown, hok, hnone], hus', hsound, hshows⟩
  | true =>
    obtain ⟨us', hok, hus', hseen⟩ := @writeFlagged_flush mem _ _ _ _ _ hwrites cache.flagged _ hus
      h.nodup (fun o _ => h.sound o) h.cleared
    refine ⟨cache.clear, us', by simp [writeDown, hok], hus', sound_clear cache, ?_⟩
    rw [shows_clear]
    funext o
    rw [hseen]
    split
    · rfl
    case isFalse hnot =>
      cases hentry : cache.cacheCoins.lookup o with
      | none => rw [shows_of_none hentry]
      | some entry =>
        refine (h.shows_of_unflagged hentry ?_).symm
        rw [h.mem_flagged, hentry] at hnot
        simpa using hnot
end

end CCoinsViewCache

def CoinsBase.view (base : CoinsBase) (o : COutPoint) : Option Coin :=
  (base.coins.lookup o).bind Coin.unspent

theorem CoinsBase.writes : CCoinsViewCache.Writes (fun base => Holds Coin.Cleared base.coins)
    CoinsBase.view (fun base o entry => pure (base.writeEntry o entry)) := by
  intro base o entry hbase hentry hcleared
  refine ⟨base.writeEntry o entry, rfl, ?_⟩
  cases hdirty : entry.isDirty with
  | false =>
    have hsame : entry.coin.unspent = base.view o := hentry.clean_below hdirty
    rw [hsame]
    simpa [writeEntry, hdirty] using hbase
  | true =>
    have hupdate : ∀ coins : CoinsView, (∀ o', coins.lookup o' =
        if o' = o then coins.lookup o else base.coins.lookup o') →
        (coins.lookup o).bind Coin.unspent = entry.coin.unspent →
        ({ base with coins := coins } : CoinsBase).view =
          Function.update base.view o entry.coin.unspent := by
      intro coins hlookup hvalue
      funext o'
      by_cases heq : o' = o
      · rw [heq, Function.update_self]
        exact hvalue
      · rw [Function.update_of_ne heq, view, hlookup, if_neg heq]
        rfl
    cases hgone : entry.coin.isSpent && !base.keepsSpent o with
    | true =>
      have hnone : entry.coin.unspent = none := by
        simp [Coin.unspent, (Bool.and_eq_true_iff.mp hgone).1]
      simp only [writeEntry, hdirty, hgone]
      refine ⟨hbase.erase o, hupdate _ (fun o' => ?_) (by simp [hnone])⟩
      simp [lookup_erase_eq]
    | false =>
      simp only [writeEntry, hdirty, hgone]
      refine ⟨hbase.insert o hcleared, hupdate _ (fun o' => ?_) (by simp)⟩
      simp [lookup_insert_eq]

theorem CCoinsViewCache.writes (below : COutPoint → Option Coin) :
    Writes (fun us => us.Sound mem below) (shows below) (writeEntry mem) :=
  fun _ _ _ hus hentry hcleared => hus.writeEntry hentry hcleared
end

end Byze
