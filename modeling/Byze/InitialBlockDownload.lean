import Mathlib.Data.List.TakeWhile
import Byze.ChainParams

/-! Initial block download: the answer that a node gives at each call, with the
latch that a call may set for all later ones. -/

namespace Byze

structure ActiveTip where
  nHeight : Nat
  nChainWork : Nat
  time : Int

structure NodeView where
  loadingBlocks : Bool
  tip : Option ActiveTip
  now : Int

structure ChainstateOptions where
  minimumChainWork : Nat
  maxTipAge : Int

def defaultMaxTipAge : Int := 24 * 60 * 60

def minimumChainWork : ChainType → Nat
  | .testnet4 => 0x00000000000000000000000000000000000000000000034a4690fe592dc49c7c
  | _ => 0

section
variable (opts : ChainstateOptions)

/-- The answer, and the latch after the call. -/
def isInitialBlockDownload (cachedFinishedIbd : Bool) (view : NodeView) : Bool × Bool :=
  if cachedFinishedIbd then (false, true)
  else if view.loadingBlocks then (true, false)
  else
    match view.tip with
    | none => (true, false)
    | some tip =>
      if tip.nHeight = 0 then (false, false)
      else if tip.nChainWork < opts.minimumChainWork then (true, false)
      else if tip.time < view.now - opts.maxTipAge then (true, false)
      else (false, true)

def ibdAnswers : Bool → List NodeView → List Bool
  | _, [] => []
  | latch, view :: views =>
    (isInitialBlockDownload opts latch view).1 :: ibdAnswers (isInitialBlockDownload opts latch view).2 views

def NodeView.atGenesis (view : NodeView) : Bool :=
  !view.loadingBlocks && view.tip.any fun tip => tip.nHeight = 0

def NodeView.synced (view : NodeView) : Bool :=
  !view.loadingBlocks && view.tip.any fun tip =>
    tip.nHeight ≠ 0 && opts.minimumChainWork ≤ tip.nChainWork && view.now - opts.maxTipAge ≤ tip.time

variable {opts}

theorem isInitialBlockDownload_latched (view : NodeView) :
    isInitialBlockDownload opts true view = (false, true) := rfl

theorem isInitialBlockDownload_unlatched (view : NodeView) : isInitialBlockDownload opts false view =
      (!(view.atGenesis || view.synced opts), view.synced opts) := by
  obtain ⟨loading, tip, now⟩ := view
  cases loading with
  | true => rfl
  | false =>
    cases tip with
    | none => rfl
    | some tip =>
      simp only [isInitialBlockDownload, NodeView.atGenesis, NodeView.synced, Option.any_some]
      by_cases hheight : tip.nHeight = 0
      · simp [hheight]
      by_cases hwork : tip.nChainWork < opts.minimumChainWork
      · simp [hheight, Nat.not_le.mpr hwork]
      by_cases htime : tip.time < now - opts.maxTipAge
      · simp [hheight, Int.not_le.mpr htime]
      · simp [hheight, htime, Nat.not_lt.mp hwork, Int.not_lt.mp htime]

theorem ibdAnswers_latched (views : List NodeView) :
    ∀ answer ∈ ibdAnswers opts true views, answer = false := by
  induction views with
  | nil => simp [ibdAnswers]
  | cons view views ih =>
    simp only [ibdAnswers, isInitialBlockDownload_latched, List.mem_cons, forall_eq_or_imp, true_and]
    exact ih

theorem ibdAnswers_unlatched (views : List NodeView) :
    (∀ answer ∈ ibdAnswers opts false views, answer = false) ↔
      ∀ view ∈ views.takeWhile fun view => !view.synced opts, view.atGenesis = true := by
  induction views with
  | nil => simp [ibdAnswers]
  | cons view views ih =>
    cases hsynced : view.synced opts with
    | true =>
      simp only [ibdAnswers, isInitialBlockDownload_unlatched, hsynced, List.takeWhile_cons]
      simpa using ibdAnswers_latched views
    | false =>
      simp only [ibdAnswers, isInitialBlockDownload_unlatched, hsynced, List.takeWhile_cons,
        List.mem_cons, forall_eq_or_imp, ih]
      simp
end

/-- Once a call has answered no, every later one does too, exactly when a node
that was asked at its genesis block is not asked again until it is synced,
other than at its genesis block. -/
theorem ibdAnswers_stay_false_iff (opts : ChainstateOptions) (views : List NodeView) :
    (ibdAnswers opts false views).Pairwise (fun answer later => answer = false → later = false) ↔
      (views.takeWhile fun view => !view.synced opts).Pairwise
        fun view later => view.atGenesis = true → later.atGenesis = true := by
  induction views with
  | nil => simp [ibdAnswers]
  | cons view views ih =>
    cases hsynced : view.synced opts with
    | true =>
      have hlatched := @ibdAnswers_latched opts views
      have hpairwise : (ibdAnswers opts true views).Pairwise
          fun answer later => answer = false → later = false :=
        List.pairwise_of_forall_mem_list fun _ _ later hlater _ => hlatched later hlater
      simp only [ibdAnswers, isInitialBlockDownload_unlatched, hsynced, List.takeWhile_cons,
        List.pairwise_cons]
      exact iff_of_true ⟨fun later hlater _ => hlatched later hlater, hpairwise⟩ List.Pairwise.nil
    | false =>
      simp only [ibdAnswers, isInitialBlockDownload_unlatched, hsynced, List.takeWhile_cons,
        List.pairwise_cons, Bool.not_false, if_true, ih]
      cases hgenesis : view.atGenesis with
      | true => simpa using fun _ => ibdAnswers_unlatched views
      | false => simp

/-- A node of the main network that is asked at its genesis block, and again
when it has connected the first block a day and a second after it was mined. -/
theorem mainnet_first_block_resumes_ibd : ibdAnswers ⟨minimumChainWork .main, defaultMaxTipAge⟩ false
      [⟨false, some ⟨0, 1048592, genesisTime .main⟩, 1777424373⟩,
        ⟨false, some ⟨1, 2097184, 1777337972⟩, 1777424373⟩] = [false, true] := by
  decide

end Byze
