import Byze.CoinsCacheSound

/-! Caches over caches show what a single map would: whatever is fetched, written
down or dropped, the uppermost one shows every coin that was added and not
spent since. -/

namespace Byze
open ExceptEq MapTotal FreshDirty CCoinsViewCache

section
variable {mem : ScriptUsage}

namespace CoinsStack

def viewFrom (base : CoinsBase) : List CCoinsViewCache → COutPoint → Option Coin
  | [] => base.view
  | cache :: lower => cache.shows (viewFrom base lower)

def view (stack : CoinsStack) : COutPoint → Option Coin := viewFrom stack.base stack.layers

variable (mem) in
def CoherentFrom (base : CoinsBase) : List CCoinsViewCache → Prop
  | [] => Holds Coin.Cleared base.coins
  | cache :: lower => cache.Sound mem (viewFrom base lower) ∧ CoherentFrom base lower

variable (mem) in
/-- Every cache says the truth about the view below it. -/
def Coherent (stack : CoinsStack) : Prop := CoherentFrom mem stack.base stack.layers

variable {base : CoinsBase} {cache : CCoinsViewCache} {lower layers : List CCoinsViewCache}
  {o : COutPoint}

structure Looked (mem : ScriptUsage) (base : CoinsBase) (layers layers' : List CCoinsViewCache) :
    Prop where
  coherent : CoherentFrom mem base layers'
  view_eq : viewFrom base layers' = viewFrom base layers
  length_eq : layers'.length = layers.length

/-- Fetching puts an entry in the cache that shows what the view below does. -/
theorem fetchCoin_looked (h : CoherentFrom mem base (cache :: lower))
    {below : Option Coin × List CCoinsViewCache} (hbelow : Looked mem base lower below.2)
    (hcoin : below.1.bind Coin.unspent = viewFrom base lower o) (hcleared : ∀ coin ∈ below.1, coin.Cleared) :
    ∃ cache' lower', (cache.fetchCoin mem o lower below).2 = cache' :: lower' ∧
      Looked mem base (cache :: lower) (cache' :: lower') ∧
      (cache.fetchCoin mem o lower below).1 = cache'.cacheCoins.lookup o ∧
      (cache'.cacheCoins.lookup o = none → viewFrom base (cache :: lower) o = none) := by
  cases hentry : cache.cacheCoins.lookup o with
  | some entry =>
    exact ⟨cache, lower, by simp [fetchCoin, hentry], ⟨h, rfl, rfl⟩,
      by simp [fetchCoin, hentry], fun hnone => by simp [hentry] at hnone⟩
  | none =>
    have hsound : cache.Sound mem (viewFrom base below.2) := by
      rw [hbelow.view_eq]
      exact h.1
    have hlength : below.2.length + 1 = lower.length + 1 := by rw [hbelow.length_eq]
    have hsame : viewFrom base (cache :: below.2) = viewFrom base (cache :: lower) := by
      simp [viewFrom, hbelow.view_eq]
    cases hfound : below.1 with
    | none =>
      refine ⟨cache, below.2, by simp [fetchCoin, hentry, hfound],
        ⟨⟨hsound, hbelow.coherent⟩, hsame, hlength⟩, by simp [fetchCoin, hentry, hfound],
        fun _ => ?_⟩
      rw [viewFrom, shows_of_none hentry, ← hcoin, hfound]
      rfl
    | some coin =>
      have hview : viewFrom base lower o = coin.unspent := by rw [← hcoin, hfound]; rfl
      refine ⟨cache.put mem o coin false coin.isSpent, below.2, by simp [fetchCoin, hentry, hfound],
        ⟨⟨hsound.put ?_ (hcleared coin hfound), hbelow.coherent⟩, ?_, hlength⟩, ?_, fun hnone => ?_⟩
      · rw [hentry, hbelow.view_eq, hview]
        have hfetched := sound_fetched coin.unspent
        rwa [Coin.isNone_unspent] at hfetched
      · rw [viewFrom, shows_put]
        change Function.update (viewFrom base (cache :: below.2)) o _ = _
        rw [hsame, Function.update_eq_iff]
        refine ⟨?_, fun _ _ => rfl⟩
        rw [viewFrom, shows_of_none hentry, hview]
      · rw [put_lookup]
        simp [fetchCoin, hentry, hfound, CCoinsCacheEntry.new]
      · rw [put_lookup, if_pos rfl] at hnone
        cases hnone

theorem filter_unspent (entry : Option CCoinsCacheEntry) :
    (entry.map CCoinsCacheEntry.coin).filter (fun coin => !coin.isSpent) =
      entry.bind fun entry => entry.coin.unspent := by
  cases entry with
  | none => rfl
  | some entry => cases hspent : entry.coin.isSpent <;> simp [Coin.unspent, hspent]

theorem bind_unspent (entry : Option CCoinsCacheEntry) :
    (entry.bind fun entry => entry.coin.unspent).bind Coin.unspent =
      entry.bind fun entry => entry.coin.unspent := by
  cases entry with
  | none => rfl
  | some entry => cases hspent : entry.coin.isSpent <;> simp [Coin.unspent, hspent]

theorem getCoinFrom_looked (h : CoherentFrom mem base layers) (o : COutPoint) :
    Looked mem base layers (getCoinFrom mem base o layers).2 ∧
      (getCoinFrom mem base o layers).1.bind Coin.unspent = viewFrom base layers o ∧
      (layers ≠ [] → (getCoinFrom mem base o layers).1 = viewFrom base layers o) ∧
      ∀ coin ∈ (getCoinFrom mem base o layers).1, coin.Cleared := by
  induction layers with
  | nil => exact ⟨⟨h, rfl, rfl⟩, rfl, fun hnil => absurd rfl hnil, fun coin hcoin => h o coin hcoin⟩
  | cons cache lower ih =>
    obtain ⟨hlooked, hcoin, -, hcleared⟩ := ih h.2
    obtain ⟨cache', lower', hlayers, hlooked', hentry, hnone⟩ :=
      fetchCoin_looked h hlooked hcoin hcleared
    have hfound : (getCoinFrom mem base o (cache :: lower)).1 =
        (cache'.cacheCoins.lookup o).bind fun entry => entry.coin.unspent := by
      rw [getCoinFrom, hentry, filter_unspent]
    have hshows : ((cache'.cacheCoins.lookup o).bind fun entry => entry.coin.unspent) =
        viewFrom base (cache :: lower) o := by
      cases hlookup : cache'.cacheCoins.lookup o with
      | none => exact (hnone hlookup).symm
      | some entry =>
        rw [← hlooked'.view_eq, viewFrom, shows_of_some hlookup]
        rfl
    refine ⟨?_, ?_, fun _ => hfound.trans hshows, ?_⟩
    · rw [getCoinFrom, hlayers]
      exact hlooked'
    · rw [hfound, bind_unspent, hshows]
    · intro coin hmem hspent
      obtain ⟨-, hnot⟩ := Option.filter_eq_some_iff.mp hmem
      simp [hspent] at hnot

def Harmless (mem : ScriptUsage) (call : CoinsStack → Except CoinsError CoinsStack) : Prop :=
  ∀ stack : CoinsStack, stack.Coherent mem → ∃ stack', call stack = .ok stack' ∧
    stack'.Coherent mem ∧ stack'.view = stack.view ∧ stack'.layers.length = stack.layers.length

variable {call : CoinsStack → Except CoinsError CoinsStack}

theorem harmless_of_looked (hcall : ∀ stack : CoinsStack, stack.Coherent mem →
      ∃ layers, call stack = .ok ⟨layers, stack.base⟩ ∧ Looked mem stack.base stack.layers layers) :
    Harmless mem call := by
  intro stack h
  obtain ⟨layers, hok, hlooked⟩ := hcall stack h
  exact ⟨⟨layers, stack.base⟩, hok, hlooked.coherent, hlooked.view_eq, hlooked.length_eq⟩

theorem harmless_getCoin (o : COutPoint) : Harmless mem fun stack => pure (stack.getCoin mem o).2 :=
  harmless_of_looked fun _ h => ⟨_, rfl, (getCoinFrom_looked h o).1⟩

theorem harmless_haveCoin (o : COutPoint) : Harmless mem fun stack => pure (stack.haveCoin mem o).2 :=
  harmless_of_looked fun _ h => ⟨_, rfl, (getCoinFrom_looked h o).1⟩

theorem harmless_uncache (o : COutPoint) : Harmless mem fun stack => pure (stack.uncache mem o) := by
  refine harmless_of_looked fun stack h => ?_
  obtain ⟨layers, base⟩ := stack
  cases layers with
  | nil => exact ⟨[], rfl, h, rfl, rfl⟩
  | cons cache lower =>
    have hsame : Looked mem base (cache :: lower) (cache :: lower) := ⟨h, rfl, rfl⟩
    cases hentry : cache.cacheCoins.lookup o with
    | none => exact ⟨cache :: lower, by simp [uncache, hentry], hsame⟩
    | some entry =>
      cases hflagged : entry.isFlagged with
      | true => exact ⟨cache :: lower, by simp [uncache, hentry, hflagged], hsame⟩
      | false =>
        refine ⟨cache.erase mem o :: lower, by simp [uncache, hentry, hflagged], ⟨h.1.erase o, h.2⟩, ?_, rfl⟩
        rw [viewFrom, shows_erase, ← h.1.shows_of_unflagged hentry hflagged, Function.update_eq_self]
        rfl

theorem harmless_batchWrite (willErase : Bool) :
    Harmless mem fun stack => stack.batchWrite mem willErase := by
  intro stack h
  obtain ⟨layers, base⟩ := stack
  match layers, h with
  | [], h => exact ⟨⟨[], base⟩, rfl, h, rfl, rfl⟩
  | [cache], h =>
    obtain ⟨cache', base', hok, hbase, hsound, hshows⟩ :=
      writeDown_sound CoinsBase.writes h.2 h.1 willErase
    refine ⟨⟨[cache'], { base' with hashBlock := cache.hashBlock }⟩, ?_, ⟨hsound, hbase⟩, hshows, rfl⟩
    simp only [batchWrite]
    rw [hok]
    rfl
  | cache :: parent :: lower, h =>
    obtain ⟨cache', parent', hok, hparent, hsound, hshows⟩ :=
      writeDown_sound (writes _) h.2.1 h.1 willErase
    exact ⟨⟨cache' :: { parent' with hashBlock := cache.hashBlock } :: lower, base⟩,
      by simp [batchWrite, hok],
      ⟨hsound, ⟨⟨hparent.nodup, hparent.linked, hparent.usage⟩, hparent.sound, hparent.cleared⟩,
        h.2.2⟩, hshows, rfl⟩

theorem Harmless.atLayer (hcall : Harmless mem call)
    (k : Nat) : Harmless mem (atLayer call k) := by
  induction k with
  | zero => exact hcall
  | succ k ih =>
    intro stack h
    obtain ⟨layers, base⟩ := stack
    cases layers with
    | nil => exact ⟨⟨[], base⟩, rfl, h, rfl, rfl⟩
    | cons cache lower =>
      obtain ⟨below, hok, hcoherent, hview, hlength⟩ := ih ⟨lower, base⟩ h.2
      have hview' : viewFrom below.base below.layers = viewFrom base lower := hview
      refine ⟨{ below with layers := cache :: below.layers }, by simp [CoinsStack.atLayer, hok],
        ⟨?_, hcoherent⟩, ?_, congrArg (· + 1) hlength⟩
      · rw [hview']
        exact h.1
      · simp [view, viewFrom, hview']

theorem addCoin_view {stack : CoinsStack} (h : stack.Coherent mem) (hlayers : stack.layers ≠ [])
    {coin : Coin} (hspent : coin.isSpent = false) {possibleOverwrite : Bool}
    (hoverwrite : possibleOverwrite = false → stack.view o = none) :
    ∃ stack', stack.addCoin mem o coin possibleOverwrite = .ok stack' ∧ stack'.Coherent mem ∧
      stack'.view = (CoinsOp.addCoin o coin possibleOverwrite).applyPlain stack.view ∧
      stack'.layers.length = stack.layers.length := by
  obtain ⟨layers, base⟩ := stack
  obtain ⟨cache, lower, rfl⟩ := List.exists_cons_of_ne_nil hlayers
  cases hunspendable : isUnspendable coin.out.scriptPubKey with
  | true =>
    refine ⟨⟨cache :: lower, base⟩, by simp [addCoin, hspent, hunspendable], h, ?_, rfl⟩
    simp [CoinsOp.applyPlain, hunspendable]
  | false =>
    have hshows : possibleOverwrite = false → cache.shows (viewFrom base lower) o = none := hoverwrite
    have hcleared : coin.Cleared := fun h => by rw [hspent] at h; cases h
    have hview : ∀ fresh, view ⟨cache.put mem o coin true fresh :: lower, base⟩ =
        (CoinsOp.addCoin o coin possibleOverwrite).applyPlain (view ⟨cache :: lower, base⟩) := by
      intro fresh
      rw [view, viewFrom, shows_put, Coin.unspent_of_not_spent hspent]
      simp [CoinsOp.applyPlain, hunspendable, view, viewFrom]
    cases hentry : cache.cacheCoins.lookup o with
    | none =>
      refine ⟨⟨cache.put mem o coin true (!possibleOverwrite) :: lower, base⟩,
        by simp [addCoin, hspent, hunspendable, hentry, CCoinsCacheEntry.new],
        ⟨h.1.put ?_ hcleared, h.2⟩, hview _, rfl⟩
      rw [hentry, Coin.unspent_of_not_spent hspent]
      refine sound_add fun hfresh => ?_
      have hnone := hshows (by simpa [CCoinsCacheEntry.new] using hfresh)
      rwa [shows_of_none hentry] at hnone
    | some entry =>
      have hgone : possibleOverwrite = false → entry.coin.unspent = none := by
        intro hfalse
        rw [← hshows hfalse, shows_of_some hentry]
      have hallowed : (!possibleOverwrite && !entry.coin.isSpent) = false := by
        cases hcase : possibleOverwrite with
        | true => rfl
        | false =>
          have hnone := hgone hcase
          rw [← Option.isNone_iff_eq_none, Coin.isNone_unspent] at hnone
          simp [hnone]
      refine ⟨⟨cache.put mem o coin true (!possibleOverwrite && !entry.isDirty) :: lower, base⟩,
        by simp [addCoin, hspent, hunspendable, hentry, hallowed],
        ⟨h.1.put ?_ hcleared, h.2⟩, hview _, rfl⟩
      rw [hentry, Coin.unspent_of_not_spent hspent]
      have hadd := @Entry.Sound.add _ _ _ coin (h.1.sound o entry hentry)
        (!possibleOverwrite && !entry.isDirty) fun hfresh => by
          obtain ⟨hfalse, hclean⟩ := Bool.and_eq_true_iff.mp hfresh
          have hdirty : entry.isDirty = false := by simpa using hclean
          exact ⟨hgone (by simpa using hfalse), hdirty⟩
      simpa [CCoinsCacheEntry.cell] using hadd

theorem spendCoin_view {stack : CoinsStack} (h : stack.Coherent mem) (hlayers : stack.layers ≠ [])
    (o : COutPoint) :
    (stack.spendCoin mem o).2.Coherent mem ∧
      (stack.spendCoin mem o).2.view = (CoinsOp.spendCoin o).applyPlain stack.view ∧
      (stack.spendCoin mem o).2.layers.length = stack.layers.length := by
  obtain ⟨layers, base⟩ := stack
  obtain ⟨cache, lower, rfl⟩ := List.exists_cons_of_ne_nil hlayers
  obtain ⟨hlooked, hcoin, -, hcleared⟩ := getCoinFrom_looked h.2 o
  obtain ⟨cache', lower', hfetched, hlooked', hentry, hnone⟩ :=
    fetchCoin_looked h hlooked hcoin hcleared
  have hfetch : cache.fetchCoin mem o lower (getCoinFrom mem base o lower) =
      (cache'.cacheCoins.lookup o, cache' :: lower') := Prod.ext hentry hfetched
  have hview : (CoinsOp.spendCoin o).applyPlain (view ⟨cache :: lower, base⟩) =
      Function.update (cache'.shows (viewFrom base lower')) o none := by
    rw [CoinsOp.applyPlain, view, ← hlooked'.view_eq]
    rfl
  rw [hview]
  obtain ⟨hsound, hlower⟩ := hlooked'.coherent
  cases hlookup : cache'.cacheCoins.lookup o with
  | none =>
    have hspend : (spendCoin mem ⟨cache :: lower, base⟩ o).2 = ⟨cache' :: lower', base⟩ := by
      simp [spendCoin, hfetch, hlookup]
    rw [hspend]
    refine ⟨hlooked'.coherent, ?_, hlooked'.length_eq⟩
    have hshows : cache'.shows (viewFrom base lower') o = none := by
      rw [← hnone hlookup, ← hlooked'.view_eq]
      rfl
    rw [← hshows, Function.update_eq_self]
    rfl
  | some entry =>
    cases hfresh : entry.isFresh with
    | true =>
      have hspend : (spendCoin mem ⟨cache :: lower, base⟩ o).2 = ⟨cache'.erase mem o :: lower', base⟩ := by
        simp [spendCoin, hfetch, hlookup, hfresh]
      rw [hspend]
      refine ⟨⟨hsound.erase o, hlower⟩, ?_, hlooked'.length_eq⟩
      simp [view, viewFrom, shows_erase, (hsound.sound o entry hlookup).fresh_below hfresh]
    | false =>
      have hspend : (spendCoin mem ⟨cache :: lower, base⟩ o).2 =
          ⟨cache'.put mem o .null true false :: lower', base⟩ := by
        simp [spendCoin, hfetch, hlookup, hfresh]
      rw [hspend]
      refine ⟨⟨hsound.put ?_ fun _ => rfl, hlower⟩, ?_, hlooked'.length_eq⟩
      · rw [hlookup]
        have hspent := @Entry.Sound.spend _ (viewFrom base lower' o) entry.cell hfresh
        simpa [CCoinsCacheEntry.cell] using hspent
      · simp [view, viewFrom, shows_put]

end CoinsStack

variable (mem) in
/-- A coin that is added is not spent, and may only overwrite a coin where the
call says so. -/
def CoinsOp.Allowed (stack : CoinsStack) : CoinsOp → Prop
  | .addCoin o coin possibleOverwrite =>
    coin.isSpent = false ∧ (possibleOverwrite = false → (stack.getCoin mem o).1 = none)
  | _ => True

variable (mem) in
def AllowedFrom : CoinsStack → List CoinsOp → Prop
  | _, [] => True
  | stack, op :: ops =>
    op.Allowed mem stack ∧ ∀ stack', op.apply mem stack = .ok stack' → AllowedFrom stack' ops

/-- A call does to what the caches show what it would do to a map. -/
theorem CoinsOp.apply_view {op : CoinsOp} {stack : CoinsStack} (h : stack.Coherent mem)
    (hlayers : stack.layers ≠ []) (hallowed : op.Allowed mem stack) :
    ∃ stack', op.apply mem stack = .ok stack' ∧ stack'.Coherent mem ∧
      stack'.view = op.applyPlain stack.view ∧ stack'.layers.length = stack.layers.length := by
  cases op with
  | addCoin o coin possibleOverwrite =>
    refine CoinsStack.addCoin_view h hlayers hallowed.1 fun hfalse => ?_
    rw [← hallowed.2 hfalse]
    exact ((CoinsStack.getCoinFrom_looked h o).2.2.1 hlayers).symm
  | spendCoin o => exact ⟨_, rfl, CoinsStack.spendCoin_view h hlayers o⟩
  | getCoin layer o => exact (CoinsStack.harmless_getCoin o).atLayer layer stack h
  | haveCoin layer o => exact (CoinsStack.harmless_haveCoin o).atLayer layer stack h
  | uncache layer o => exact (CoinsStack.harmless_uncache o).atLayer layer stack h
  | sync layer => exact (CoinsStack.harmless_batchWrite false).atLayer layer stack h
  | flush layer => exact (CoinsStack.harmless_batchWrite true).atLayer layer stack h

theorem CoinsStack.run_view {stack : CoinsStack} (h : stack.Coherent mem) (hlayers : stack.layers ≠ [])
    {ops : List CoinsOp} (hallowed : AllowedFrom mem stack ops) :
    ∃ stack', stack.run mem ops = .ok stack' ∧ stack'.Coherent mem ∧ stack'.layers ≠ [] ∧
      stack'.view = ops.foldl (fun coins op => op.applyPlain coins) stack.view := by
  induction ops generalizing stack with
  | nil => exact ⟨stack, rfl, h, hlayers, rfl⟩
  | cons op ops ih =>
    obtain ⟨stack₁, hop, hcoherent, hview, hlength⟩ := CoinsOp.apply_view h hlayers hallowed.1
    have hlayers₁ : stack₁.layers ≠ [] := by
      rw [← List.length_pos_iff, hlength]
      exact List.length_pos_iff.mpr hlayers
    obtain ⟨stack', hrun, hrest⟩ := ih hcoherent hlayers₁ (hallowed.2 stack₁ hop)
    refine ⟨stack', ?_, hrest.1, hrest.2.1, ?_⟩
    · rw [run, List.foldlM_cons, hop]
      exact hrun
    · rw [hrest.2.2, hview]
      rfl

def CoinsStack.new (depth : Nat) (base : CoinsBase) : CoinsStack :=
  ⟨List.replicate (depth + 1) .new, base⟩

theorem CoinsStack.new_coherent {base : CoinsBase} (hbase : Holds Coin.Cleared base.coins)
    (n : Nat) : CoherentFrom mem base (List.replicate n .new) ∧
      viewFrom base (List.replicate n .new) = base.view := by
  induction n with
  | zero => exact ⟨hbase, rfl⟩
  | succ n ih =>
    rw [List.replicate_succ]
    refine ⟨⟨sound_clear .new, ih.1⟩, ?_⟩
    rw [viewFrom, ih.2]
    exact shows_clear .new

theorem CoinsStack.CoherentFrom.sound {base : CoinsBase} {layers : List CCoinsViewCache}
    (h : CoherentFrom mem base layers) :
    ∀ cache ∈ layers, ∃ below, CCoinsViewCache.Sound mem below cache := by
  induction layers with
  | nil => simp
  | cons cache lower ih =>
    intro cache' hmem
    rcases List.mem_cons.mp hmem with rfl | hmem
    · exact ⟨_, h.1⟩
    · exact ih h.2 cache' hmem
end

/-- Caches over a store of coins are one map: no call throws, `GetCoin` gives
what the map has, and `SanityCheck` finds nothing. -/
theorem coinsStack_refines_map (mem : ScriptUsage) {base : CoinsBase}
    (hbase : Holds Coin.Cleared base.coins) (depth : Nat) {ops : List CoinsOp}
    (hallowed : AllowedFrom mem (CoinsStack.new depth base) ops) :
    ∃ stack, (CoinsStack.new depth base).run mem ops = .ok stack ∧ (∀ o, (stack.getCoin mem o).1 =
        ops.foldl (fun coins op => op.applyPlain coins) base.view o) ∧
      ∀ cache ∈ stack.layers, (∀ o entry, cache.cacheCoins.lookup o = some entry →
          entry.attr ≠ 2 ∧ entry.attr ≠ 4 ∧ entry.attr ≠ 7) ∧
        cache.cachedCoinsUsage = total
          (fun entry : CCoinsCacheEntry => entry.coin.dynamicMemoryUsage mem) cache.cacheCoins := by
  obtain ⟨hcoherent, hview⟩ := @CoinsStack.new_coherent mem base hbase (depth + 1)
  obtain ⟨stack, hrun, hstack, hlayers, hshows⟩ :=
    @CoinsStack.run_view mem (CoinsStack.new depth base) hcoherent (by simp [CoinsStack.new]) ops hallowed
  refine ⟨stack, hrun, fun o => ?_, fun cache hmem => ?_⟩
  · have hview' : (CoinsStack.new depth base).view = base.view := hview
    rw [← hview', ← hshows]
    exact (CoinsStack.getCoinFrom_looked hstack o).2.2.1 hlayers
  · obtain ⟨below, hsound⟩ := hstack.sound cache hmem
    exact ⟨fun o entry hentry =>
      CCoinsCacheEntry.attr_of_documented (hsound.sound o entry hentry).documented, hsound.usage⟩

def sampleUsage : ScriptUsage := ⟨List.length, rfl⟩

def sampleCoin : Coin := ⟨⟨5, [0x51, 0x51]⟩, false, 1⟩

/-- Two caches over a store with an empty entry, and a coin that goes through
all of them. -/
theorem coinsStack_refines_map_sample :
    ∃ stack, (CoinsStack.new 1 ⟨AList.singleton ⟨Uint256.zero, 1⟩ .null, Uint256.zero,
        fun _ => true⟩).run sampleUsage
        [.getCoin 1 ⟨Uint256.zero, 1⟩, .addCoin ⟨Uint256.zero, 0⟩ sampleCoin false, .flush 0,
          .spendCoin ⟨Uint256.zero, 0⟩, .sync 0, .flush 1, .addCoin ⟨Uint256.zero, 1⟩ sampleCoin true] =
        .ok stack ∧
      (∀ o, (stack.getCoin sampleUsage o).1 =
        [CoinsOp.getCoin 1 ⟨Uint256.zero, 1⟩, .addCoin ⟨Uint256.zero, 0⟩ sampleCoin false, .flush 0,
          .spendCoin ⟨Uint256.zero, 0⟩, .sync 0, .flush 1,
          .addCoin ⟨Uint256.zero, 1⟩ sampleCoin true].foldl (fun coins op => op.applyPlain coins)
          (CoinsBase.view ⟨AList.singleton ⟨Uint256.zero, 1⟩ .null, Uint256.zero, fun _ => true⟩) o) ∧
      ∀ cache ∈ stack.layers, (∀ o entry, cache.cacheCoins.lookup o = some entry →
          entry.attr ≠ 2 ∧ entry.attr ≠ 4 ∧ entry.attr ≠ 7) ∧
        cache.cachedCoinsUsage = total
          (fun entry : CCoinsCacheEntry => entry.coin.dynamicMemoryUsage sampleUsage)
          cache.cacheCoins := by
  refine coinsStack_refines_map sampleUsage ?_ 1 ?_
  · intro o coin hcoin _
    by_cases ho : o = ⟨Uint256.zero, 1⟩
    · subst ho
      cases hcoin
      rfl
    · rw [← AList.insert_empty, AList.lookup_insert_ne ho] at hcoin
      cases hcoin
  · refine ⟨trivial, fun stack₁ h₁ => ?_⟩
    cases h₁
    refine ⟨⟨rfl, fun _ => rfl⟩, fun _ _ => ⟨trivial, fun _ _ => ⟨trivial, fun _ _ => ⟨trivial,
      fun _ _ => ⟨trivial, fun _ _ => ⟨⟨rfl, fun h => ?_⟩, fun _ _ => trivial⟩⟩⟩⟩⟩⟩
    cases h

end Byze
