import BitcoindRs.Chain.Difficulty
import BitcoindRs.Consensus.Rounding

/-! The changes of difficulty that headers may show before the chain is known, against the rule that the chain applies. -/

namespace BitcoindRs
open FMap Ancestry BlockIndex Target

namespace Target
variable {network : Network}

/-- Bits in their shortest form, of a target within the limit of the network. -/
structure Legal (network : Network) (bits : ℕ) : Prop where
  canonical : toCompactLossy (fromCompact bits) = bits
  limited : fromCompact bits ≤ maxAttainable network

theorem maxAttainable_lt (network : Network) : maxAttainable network < 2 ^ 256 := by
  cases network <;> decide +kernel

theorem maxTransitionThreshold_le (network : Network) (target : ℕ) : maxTransitionThreshold network target ≤ maxAttainable network :=
  Nat.min_le_right _ _

/-- A retarget is the rounded form of a target up to the largest that one transition allows. -/
theorem fromCompact_retarget (network : Network) (base timespan : ℕ) :
    fromCompact (retarget network base timespan) = rounded (min (fromCompact base * timespan % 2 ^ 256 / powTargetTimespan)
      (maxTransitionThreshold network (fromCompact base))) := by
  have fits := (maxTransitionThreshold_le network (fromCompact base)).trans_lt (maxAttainable_lt network)
  unfold retarget
  dsimp only
  split
  · rename_i large
    rw [fromCompact_toCompactLossy fits, Nat.min_eq_right large]
  · rw [fromCompact_toCompactLossy (by omega), Nat.min_eq_left (by omega)]

theorem fromCompact_retarget_le (network : Network) (base timespan : ℕ) :
    fromCompact (retarget network base timespan) ≤ maxAttainable network := by
  rw [fromCompact_retarget]
  exact (rounded_le _).trans ((Nat.min_le_right _ _).trans (maxTransitionThreshold_le network _))

/-- The longest period does not make the product overflow, on the networks whose headers are checked. -/
theorem product_lt (strict : network.allowMinDifficultyBlocks = false) {target timespan : ℕ}
    (limited : target ≤ maxAttainable network) (longest : timespan ≤ powTargetTimespan <<< 2) : target * timespan < 2 ^ 256 := by
  have worst : maxAttainable network * (powTargetTimespan <<< 2) < 2 ^ 256 := by
    cases network <;> first | decide +kernel | cases strict
  exact (Nat.mul_le_mul limited longest).trans_lt worst

theorem retarget_permitted (strict : network.allowMinDifficultyBlocks = false) {bits : ℕ} (legal : Legal network bits)
    {timespan : ℕ} (shortest : powTargetTimespan >>> 2 ≤ timespan) (longest : timespan ≤ powTargetTimespan <<< 2) :
    fromCompact (toCompactLossy (minTransitionThreshold (fromCompact bits))) ≤ fromCompact (retarget network bits timespan) ∧
      fromCompact (retarget network bits timespan) ≤
        fromCompact (toCompactLossy (maxTransitionThreshold network (fromCompact bits))) := by
  have limited := legal.limited
  have fits := limited.trans_lt (maxAttainable_lt network)
  have quarter : minTransitionThreshold (fromCompact bits) = fromCompact bits / 4 := Nat.shiftRight_eq_div_pow _ 2
  have product := product_lt strict limited longest
  have limit : maxAttainable network * 4 < 2 ^ 256 := by
    cases network <;> first | decide +kernel | cases strict
  rw [fromCompact_retarget, fromCompact_toCompactLossy (by omega),
    fromCompact_toCompactLossy ((maxTransitionThreshold_le network _).trans_lt (maxAttainable_lt network)),
    Nat.mod_eq_of_lt product]
  refine ⟨rounded_mono (Nat.le_min.mpr ⟨?_, ?_⟩), rounded_mono (Nat.min_le_right _ _)⟩
  · rw [quarter]
    calc fromCompact bits / 4 = fromCompact bits * (powTargetTimespan >>> 2) / powTargetTimespan := by
          change _ = fromCompact bits * 302400 / 1209600
          omega
      _ ≤ fromCompact bits * timespan / powTargetTimespan := Nat.div_le_div_right (Nat.mul_le_mul_left _ shortest)
  · rw [quarter, maxTransitionThreshold, Nat.shiftLeft_eq, Nat.mod_eq_of_lt (by omega)]
    omega

end Target

variable [Library]

namespace ChainState
variable {st : ChainState} {world : Set Header} {parentHash : BlockHash} {time expected : ℕ}

omit [Library] in
theorem lastHarderTarget_mem {network : Network} {index : BlockIndex} {fuel target : ℕ} {cursor : BlockHash}
    (found : lastHarderTarget network index fuel cursor = some target) :
    ∃ hash node, index.lookup hash = some node ∧ fromCompact node.header.bits = target := by
  induction fuel generalizing cursor with
  | zero => cases found
  | succ fuel ih =>
    rw [lastHarderTarget] at found
    split at found
    · cases found
    · rename_i node stored
      split at found
      · exact ⟨cursor, node, stored, Option.some.inj found⟩
      · exact ih found

section expected
variable {parent : BlockNode} (found : st.blockIndex.lookup parentHash = some parent)
include found

section
omit [Library]

/-- What the rule gives at a height where the target is not adjusted, on a network without minimum difficulty. -/
theorem expected_between (strict : st.config.params.network.allowMinDifficultyBlocks = false)
    (between : (parent.height + 1) % difficultyAdjustmentInterval st.config.params.network ≠ 0)
    (rule : st.expectedTargetForParent parentHash time = some expected) : expected = fromCompact parent.header.bits := by
  simp only [expectedTargetForParent, found, Option.bind_eq_bind, Option.bind_some, strict, Bool.false_eq_true, false_and,
    if_false, if_pos between, pure] at rule
  split at rule <;> exact (Option.some.inj rule).symm

theorem expected_boundary (retargets : st.config.params.network.noPowRetargeting = false)
    (boundary : (parent.height + 1) % difficultyAdjustmentInterval st.config.params.network = 0)
    (rule : st.expectedTargetForParent parentHash time = some expected) :
    ∃ base timespan, expected = fromCompact (retarget st.config.params.network base
        (min (max timespan (powTargetTimespan >>> 2)) (powTargetTimespan <<< 2))) ∧
      (st.config.params.network ≠ .testnet4 → base = parent.header.bits) := by
  simp only [expectedTargetForParent, found, Option.bind_eq_bind, Option.bind_some, retargets, Bool.false_eq_true, boundary,
    ne_eq, not_true_eq_false, if_false, pure] at rule
  obtain ⟨firstHash, -, rule⟩ := Option.bind_eq_some_iff.mp rule
  obtain ⟨first, -, rule⟩ := Option.bind_eq_some_iff.mp rule
  rw [fromNextWorkRequired, if_neg (by simp [retargets])] at rule
  refine ⟨_, _, (Option.some.inj rule).symm, fun other => ?_⟩
  rw [if_neg other]

theorem expected_cases (rule : st.expectedTargetForParent parentHash time = some expected) :
    expected = maxAttainable st.config.params.network ∨
    (∃ hash node, st.blockIndex.lookup hash = some node ∧ fromCompact node.header.bits = expected) ∨
    ∃ base timespan, expected = fromCompact (retarget st.config.params.network base timespan) := by
  cases retargets : st.config.params.network.noPowRetargeting with
  | true =>
    simp only [expectedTargetForParent, found, Option.bind_eq_bind, Option.bind_some, retargets, if_true, pure] at rule
    exact .inr (.inl ⟨parentHash, parent, found, Option.some.inj rule⟩)
  | false =>
    by_cases boundary : (parent.height + 1) % difficultyAdjustmentInterval st.config.params.network = 0
    · obtain ⟨base, timespan, same, -⟩ := expected_boundary found retargets boundary rule
      exact .inr (.inr ⟨base, _, same⟩)
    · simp only [expectedTargetForParent, found, Option.bind_eq_bind, Option.bind_some, retargets, Bool.false_eq_true,
        if_false, ne_eq, boundary, not_false_eq_true, if_true, pure] at rule
      split at rule
      · exact .inl (Option.some.inj rule).symm
      · split at rule
        · rcases harder : lastHarderTarget st.config.params.network st.blockIndex (parent.height + 1) parentHash with _ | target
          · rw [harder] at rule
            exact .inr (.inl ⟨parentHash, parent, found, Option.some.inj rule⟩)
          · rw [harder] at rule
            obtain ⟨hash, node, stored, same⟩ := lastHarderTarget_mem harder
            exact .inr (.inl ⟨hash, node, stored, same.trans (Option.some.inj rule)⟩)
        · exact .inr (.inl ⟨parentHash, parent, found, Option.some.inj rule⟩)

end

end expected

/-- Every header that the node indexes has legal bits. -/
theorem TargetRun.legal (run : TargetRun world st) : ∀ hash node, st.blockIndex.lookup hash = some node →
    Target.Legal st.config.params.network node.header.bits := by
  induction run with
  | start _ _ genesis =>
    intro hash node found
    rw [(genesis hash node found).2]
    exact ⟨by rw [fromCompact_limitBits]; rfl, (fromCompact_limitBits _).le⟩
  | @header st header parent expected run known small fresh found target meets ih =>
    intro hash node stored
    rw [indexChild, lookup_insert_ite] at stored
    split at stored
    · cases stored
      simp only [meetsExpectedTarget, decide_eq_true_eq] at meets
      refine ⟨by rw [meets.1, ← meets.2], ?_⟩
      change fromCompact header.bits ≤ maxAttainable st.config.params.network
      rw [meets.1]
      obtain limit | ⟨other, node, stored, same⟩ | ⟨base, timespan, same⟩ := expected_cases found target
      · exact limit.le
      · rw [← same]
        exact (ih other node stored).limited
      · rw [same]
        exact fromCompact_retarget_le _ _ _
    · exact ih hash node stored
  | elsewhere run indexed sameNetwork kept nothingNew ih =>
    intro hash node stored
    obtain ⟨old, found, same, -⟩ := nothingNew hash node stored
    rw [sameNetwork, ← same]
    exact ih hash old found

/-- A header that meets the target expected on top of its parent always passes the check made before the chain is known;
every indexed header is legal; and where the target is not adjusted only equal bits pass. -/
theorem legal_transitions_permitted :
    (∀ (st : ChainState) (parentHash : BlockHash) (parent : BlockNode) (time expected : ℕ) (header : Header),
      st.blockIndex.lookup parentHash = some parent → Target.Legal st.config.params.network parent.header.bits →
      st.expectedTargetForParent parentHash time = some expected → meetsExpectedTarget header expected = true →
      permittedDifficultyTransition st.config.params.network (parent.height + 1) parent.header.bits header.bits = true) ∧
    (∀ (world : Set Header) (st : ChainState), TargetRun world st → ∀ hash node, st.blockIndex.lookup hash = some node →
      Target.Legal st.config.params.network node.header.bits) ∧
    ∀ (network : Network) (height oldBits newBits : ℕ), network.allowMinDifficultyBlocks = false →
      height % difficultyAdjustmentInterval network ≠ 0 →
      permittedDifficultyTransition network height oldBits newBits = true →
      fromCompact oldBits = fromCompact newBits := by
  refine ⟨?_, fun world st run => run.legal, ?_⟩
  · intro st parentHash parent time expected header found legal rule meets
    simp only [meetsExpectedTarget, decide_eq_true_eq] at meets
    unfold permittedDifficultyTransition
    cases strict : st.config.params.network.allowMinDifficultyBlocks with
    | true => rfl
    | false =>
      rw [if_neg Bool.false_ne_true]
      split
      · rename_i between
        rw [expected_between found strict between rule] at meets
        rw [meets.2, legal.canonical, decide_eq_true_eq]
      · rename_i boundary
        dsimp only
        rw [decide_eq_true_eq, meets.1]
        have retargets : st.config.params.network.noPowRetargeting = false := by
          revert strict
          cases st.config.params.network <;> decide
        have other : st.config.params.network ≠ .testnet4 := by
          intro same
          rw [same] at strict
          cases strict
        obtain ⟨base, timespan, same, own⟩ := expected_boundary found retargets (not_not.mp boundary) rule
        rw [same, own other]
        have bounds : powTargetTimespan >>> 2 ≤ powTargetTimespan <<< 2 := by decide
        exact retarget_permitted strict legal (by omega) (Nat.min_le_right _ _)
  · intro network height oldBits newBits strict between permitted
    rw [permittedDifficultyTransition, if_neg (by simp [strict]), if_pos between, decide_eq_true_eq] at permitted
    rw [permitted]

omit [Library] in
/-- A block on top of genesis. -/
theorem legal_transitions_permitted_sample : let st : ChainState :=
      { Difficulty.sampleState with config := { sampleConfig with params := .forNetwork .bitcoin } }
    st.expectedTargetForParent 0 600 = some (0xFFFF <<< 208) ∧
      permittedDifficultyTransition .bitcoin 1 0x1d00ffff 0x1d00ffff = true := by
  intro st
  have rule : st.expectedTargetForParent 0 600 = some (0xFFFF <<< 208) := by decide +kernel
  refine ⟨rule, ?_⟩
  exact (@legal_transitions_permitted Library.sample).1 st 0 ⟨⟨1, 0, 0, 0, 0x1d00ffff, 0⟩, 0, 1, none⟩ 600 (0xFFFF <<< 208)
    ⟨1, 0, 0, 600, 0x1d00ffff, 0⟩ (by decide +kernel) ⟨by decide +kernel, by decide +kernel⟩ rule (by decide +kernel)

end ChainState

end BitcoindRs
