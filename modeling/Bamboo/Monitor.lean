import Mathlib.Data.List.Induction
import Mathlib.Data.List.ReduceOption

/-! The monitor that a replica feeds once per sampling interval. A round appends one value
to each counted series and then goes over the whole series again for the rates, which it
appends to what the earlier rounds have left. Slices are lists here. The list of the pool
shares its array with the list of received transactions, but it is assigned in every round
after the other one has been appended to, so what it holds after a round is as if it had an
array of its own. -/
namespace Bamboo

/-- What a round reads. The delays are the means of the recorded times, as strings; Go adds
them up in the order of a map iteration. -/
structure Sample where
  stable : Int
  committed : Int
  executed : Int
  received : Int
  pool : Int
  stableDelay : String
  committedDelay : String
  executedDelay : String

/-- The interval is in nanoseconds. -/
structure MonitorManager where
  interval : Int
  stableNumList : List Int := []
  executedNumList : List Int := []
  committedNumList : List Int := []
  receiveTxNumList : List Int := []
  poolTxNumList : List Int := []
  stableTPSList : List Float := []
  committedTPSList : List Float := []
  executedTPSList : List Float := []
  stableTpsFromBeginList : List Float := []
  committedTpsFromBeginList : List Float := []
  executedTpsFromBeginList : List Float := []
  stableDelayList : List String := []
  committedDelayList : List String := []
  executedDelayList : List String := []

/-- `Seconds` of a duration. -/
def seconds (duration : Int) : Float :=
  Float.ofInt (duration.tdiv 1000000000) + Float.ofInt (duration.tmod 1000000000) / 1e9

/-- The rate between two samples. -/
def rateBetween (interval before current : Int) : Float :=
  if seconds interval != 0 then
    (Float.ofInt current - Float.ofInt before) / seconds interval
  else 0

/-- The rates of one pass over a series. The first sample is divided by the interval whether
or not that is zero; for every other one the sample before it is read. -/
def tps (interval : Int) (series : List Int) : List Float :=
  series.mapIdx fun index value =>
    if index = 0 then Float.ofInt value / seconds interval
    else rateBetween interval (series.getD (index - 1) 0) value

/-- The rates since the start of one pass over a series. -/
def tpsFromBegin (interval : Int) (series : List Int) : List Float :=
  (series.mapIdx fun index value =>
    let time := Float.ofInt (index + 1) * seconds interval
    if time != 0 then some (Float.ofInt value / time) else none).reduceOption

namespace MonitorManager

def collectStableNum (m : MonitorManager) (stable : Int) : MonitorManager :=
  { m with stableNumList := m.stableNumList ++ [stable] }

def collectExecutedNum (m : MonitorManager) (executed : Int) : MonitorManager :=
  { m with executedNumList := m.executedNumList ++ [executed] }

def collectCommittedNum (m : MonitorManager) (committed : Int) : MonitorManager :=
  { m with committedNumList := m.committedNumList ++ [committed] }

def collectReceiveTxNum (m : MonitorManager) (receiveNum : Int) : MonitorManager :=
  { m with receiveTxNumList := m.receiveTxNumList ++ [receiveNum] }

/-- Unlike the others it appends to another series than its own. -/
def collectePoolTxNum (m : MonitorManager) (poolTxNum : Int) : MonitorManager :=
  { m with poolTxNumList := m.receiveTxNumList ++ [poolTxNum] }

def collectStableTPS (m : MonitorManager) : MonitorManager :=
  { m with stableTPSList := m.stableTPSList ++ tps m.interval m.stableNumList }

def collectCommittedTPS (m : MonitorManager) : MonitorManager :=
  { m with committedTPSList := m.committedTPSList ++ tps m.interval m.committedNumList }

def collectExecutedTPS (m : MonitorManager) : MonitorManager :=
  { m with executedTPSList := m.executedTPSList ++ tps m.interval m.executedNumList }

def collectStableTPSFromBegin (m : MonitorManager) : MonitorManager :=
  { m with
    stableTpsFromBeginList := m.stableTpsFromBeginList ++ tpsFromBegin m.interval m.stableNumList }

def collectCommittedTPSFromBegin (m : MonitorManager) : MonitorManager :=
  { m with
    committedTpsFromBeginList :=
      m.committedTpsFromBeginList ++ tpsFromBegin m.interval m.committedNumList }

def collectExecutedTPSFromBegin (m : MonitorManager) : MonitorManager :=
  { m with
    executedTpsFromBeginList :=
      m.executedTpsFromBeginList ++ tpsFromBegin m.interval m.executedNumList }

def collectStableDelay (m : MonitorManager) (mean : String) : MonitorManager :=
  { m with stableDelayList := m.stableDelayList ++ [mean] }

def collectCommittedDelay (m : MonitorManager) (mean : String) : MonitorManager :=
  { m with committedDelayList := m.committedDelayList ++ [mean] }

def collectExecutedDelay (m : MonitorManager) (mean : String) : MonitorManager :=
  { m with executedDelayList := m.executedDelayList ++ [mean] }

/-- One round of the replica. -/
def collectData (m : MonitorManager) (sample : Sample) : MonitorManager :=
  let m := m.collectStableNum sample.stable
  let m := m.collectCommittedNum sample.committed
  let m := m.collectExecutedNum sample.executed
  let m := m.collectReceiveTxNum sample.received
  let m := m.collectePoolTxNum sample.pool
  let m := m.collectStableTPS
  let m := m.collectStableTPSFromBegin
  let m := m.collectStableDelay sample.stableDelay
  let m := m.collectCommittedTPS
  let m := m.collectCommittedTPSFromBegin
  let m := m.collectCommittedDelay sample.committedDelay
  let m := m.collectExecutedTPS
  let m := m.collectExecutedTPSFromBegin
  m.collectExecutedDelay sample.executedDelay

def rounds (interval : Int) (samples : List Sample) : MonitorManager :=
  samples.foldl collectData { interval }

end MonitorManager

/-- What the passes over a growing series leave: one pass over every nonempty start of it. -/
def passes {α : Type} (pass : List Int → List α) (series : List Int) : List α :=
  (List.range series.length).flatMap fun k => pass (series.take (k + 1))

theorem passes_append {α : Type} (pass : List Int → List α) (series : List Int) (value : Int) :
    passes pass (series ++ [value]) = passes pass series ++ pass (series ++ [value]) := by
  have hLast : (series ++ [value]).take (series.length + 1) = series ++ [value] :=
    List.take_of_length_le (by simp)
  have hEarlier : (List.range series.length).flatMap
      (fun k => pass ((series ++ [value]).take (k + 1))) = passes pass series := by
    apply List.flatMap_congr
    intro k hk
    rw [List.take_append_of_le_length (List.mem_range.mp hk)]
  unfold passes
  rw [List.length_append, List.length_singleton, List.range_succ, List.flatMap_append,
    List.flatMap_singleton, hLast, hEarlier]
  rfl

@[simp] theorem length_tps (interval : Int) (series : List Int) :
    (tps interval series).length = series.length :=
  List.length_mapIdx

/-- An entry of a pass is computed from its own sample and the one before it. -/
theorem tps_getElem? (interval : Int) (series : List Int) (i : Nat) :
    (tps interval series)[i]? = series[i]?.map fun current =>
      if i = 0 then Float.ofInt current / seconds interval
      else rateBetween interval (series.getD (i - 1) 0) current :=
  List.getElem?_mapIdx

/-- The passes over `k` samples have `1 + 2 + … + k` entries. -/
theorem length_passes_tps (interval : Int) (series : List Int) :
    2 * (passes (tps interval) series).length = series.length * (series.length + 1) := by
  induction series using List.reverseRecOn with
  | nil => rfl
  | append_singleton series value ih =>
      rw [passes_append, List.length_append, Nat.mul_add, ih, length_tps, List.length_append,
        List.length_singleton, ← Nat.add_mul, Nat.mul_comm]

namespace MonitorManager

/-- Everything the monitor holds after some rounds. -/
structure Recorded (interval : Int) (samples : List Sample) (m : MonitorManager) : Prop where
  interval_eq : m.interval = interval
  stable : m.stableNumList = samples.map Sample.stable
  committed : m.committedNumList = samples.map Sample.committed
  executed : m.executedNumList = samples.map Sample.executed
  received : m.receiveTxNumList = samples.map Sample.received
  pool : m.poolTxNumList =
    samples.getLast?.elim [] fun last => samples.map Sample.received ++ [last.pool]
  stableTPS : m.stableTPSList = passes (tps interval) (samples.map Sample.stable)
  committedTPS : m.committedTPSList = passes (tps interval) (samples.map Sample.committed)
  executedTPS : m.executedTPSList = passes (tps interval) (samples.map Sample.executed)
  stableFromBegin :
    m.stableTpsFromBeginList = passes (tpsFromBegin interval) (samples.map Sample.stable)
  committedFromBegin :
    m.committedTpsFromBeginList = passes (tpsFromBegin interval) (samples.map Sample.committed)
  executedFromBegin :
    m.executedTpsFromBeginList = passes (tpsFromBegin interval) (samples.map Sample.executed)
  stableDelay : m.stableDelayList = samples.map Sample.stableDelay
  committedDelay : m.committedDelayList = samples.map Sample.committedDelay
  executedDelay : m.executedDelayList = samples.map Sample.executedDelay

section Round

variable {α β : Type} {samples : List Sample}

/-- A series to which a round appends its sample. -/
theorem counted {field : Sample → α} {series : List α} (h : series = samples.map field)
    (sample : Sample) : series ++ [field sample] = (samples ++ [sample]).map field := by
  rw [h, List.map_append]
  rfl

/-- A list to which a round appends a pass over a series with the new sample. -/
theorem passed {field : Sample → Int} {series : List Int} {pass : List Int → List β}
    {found : List β} (h : series = samples.map field)
    (hFound : found = passes pass (samples.map field)) (sample : Sample) :
    found ++ pass (series ++ [field sample]) = passes pass ((samples ++ [sample]).map field) := by
  rw [hFound, h, List.map_append, List.map_singleton, passes_append]

end Round

/-- What a round does to every list. -/
theorem collectData_eq (m : MonitorManager) (sample : Sample) :
    m.collectData sample = {
      interval := m.interval
      stableNumList := m.stableNumList ++ [sample.stable]
      executedNumList := m.executedNumList ++ [sample.executed]
      committedNumList := m.committedNumList ++ [sample.committed]
      receiveTxNumList := m.receiveTxNumList ++ [sample.received]
      poolTxNumList := m.receiveTxNumList ++ [sample.received] ++ [sample.pool]
      stableTPSList := m.stableTPSList ++ tps m.interval (m.stableNumList ++ [sample.stable])
      committedTPSList :=
        m.committedTPSList ++ tps m.interval (m.committedNumList ++ [sample.committed])
      executedTPSList :=
        m.executedTPSList ++ tps m.interval (m.executedNumList ++ [sample.executed])
      stableTpsFromBeginList :=
        m.stableTpsFromBeginList ++ tpsFromBegin m.interval (m.stableNumList ++ [sample.stable])
      committedTpsFromBeginList := m.committedTpsFromBeginList ++
        tpsFromBegin m.interval (m.committedNumList ++ [sample.committed])
      executedTpsFromBeginList := m.executedTpsFromBeginList ++
        tpsFromBegin m.interval (m.executedNumList ++ [sample.executed])
      stableDelayList := m.stableDelayList ++ [sample.stableDelay]
      committedDelayList := m.committedDelayList ++ [sample.committedDelay]
      executedDelayList := m.executedDelayList ++ [sample.executedDelay] } := by
  simp only [collectData, collectStableNum, collectCommittedNum, collectExecutedNum,
    collectReceiveTxNum, collectePoolTxNum, collectStableTPS, collectStableTPSFromBegin,
    collectStableDelay, collectCommittedTPS, collectCommittedTPSFromBegin, collectCommittedDelay,
    collectExecutedTPS, collectExecutedTPSFromBegin, collectExecutedDelay]

theorem Recorded.collectData {interval : Int} {samples : List Sample} {m : MonitorManager}
    (h : m.Recorded interval samples) (sample : Sample) :
    (m.collectData sample).Recorded interval (samples ++ [sample]) := by
  obtain rfl := h.interval_eq
  rw [collectData_eq]
  exact {
    interval_eq := rfl
    stable := counted h.stable sample
    committed := counted h.committed sample
    executed := counted h.executed sample
    received := counted h.received sample
    pool := by
      rw [List.getLast?_concat, ← counted h.received sample]
      rfl
    stableTPS := passed h.stable h.stableTPS sample
    committedTPS := passed h.committed h.committedTPS sample
    executedTPS := passed h.executed h.executedTPS sample
    stableFromBegin := passed h.stable h.stableFromBegin sample
    committedFromBegin := passed h.committed h.committedFromBegin sample
    executedFromBegin := passed h.executed h.executedFromBegin sample
    stableDelay := counted h.stableDelay sample
    committedDelay := counted h.committedDelay sample
    executedDelay := counted h.executedDelay sample }

theorem rounds_recorded (interval : Int) (samples : List Sample) :
    (rounds interval samples).Recorded interval samples := by
  induction samples using List.reverseRecOn with
  | nil => constructor <;> rfl
  | append_singleton samples sample ih =>
      rw [rounds, List.foldl_append]
      exact ih.collectData sample

/-- A list of rates has one entry for each of `series`, computed from that value and the one
before it. -/
def OnePerSample (interval : Int) (series : List Int) (rates : List Float) : Prop :=
  rates.length = series.length ∧ ∀ i, rates[i]? = series[i]?.map fun current =>
    if i = 0 then Float.ofInt current / seconds interval
    else rateBetween interval (series.getD (i - 1) 0) current

/-- There is one rate per sample only while there is at most one sample. -/
theorem onePerSample_passes_iff (interval : Int) (series : List Int) :
    OnePerSample interval series (passes (tps interval) series) ↔ series.length ≤ 1 := by
  constructor
  · intro h
    have hLength := length_passes_tps interval series
    rw [h.1] at hLength
    by_contra hLong
    have hMore : series.length * 2 < series.length * (series.length + 1) :=
      Nat.mul_lt_mul_of_pos_left (by omega) (by omega)
    omega
  · intro h
    match series, h with
    | [], _ => exact ⟨rfl, fun i => rfl⟩
    | [value], _ => exact ⟨length_tps interval [value], tps_getElem? interval [value]⟩

/-- After any number of rounds four of the counted series hold their samples. The one of the
pool holds the received transactions and its own last sample, so it is right only before the
first round, and the rates are right up to the first round: each round repeats the rates of
all samples. -/
theorem collectData_series (interval : Int) (samples : List Sample) :
    let m := rounds interval samples
    (m.stableNumList = samples.map Sample.stable ∧
      m.committedNumList = samples.map Sample.committed ∧
      m.executedNumList = samples.map Sample.executed ∧
      m.receiveTxNumList = samples.map Sample.received) ∧
    (∀ last, samples.getLast? = some last →
      m.poolTxNumList = samples.map Sample.received ++ [last.pool]) ∧
    (m.poolTxNumList = samples.map Sample.pool ↔ samples.length = 0) ∧
    (∀ series rates, (series, rates) ∈ [(samples.map Sample.stable, m.stableTPSList),
        (samples.map Sample.committed, m.committedTPSList),
        (samples.map Sample.executed, m.executedTPSList)] →
      2 * rates.length = samples.length * (samples.length + 1) ∧
      (OnePerSample interval series rates ↔ samples.length ≤ 1)) := by
  intro m
  have h : m.Recorded interval samples := rounds_recorded interval samples
  refine ⟨⟨h.stable, h.committed, h.executed, h.received⟩, ?_, ?_, ?_⟩
  · intro last hLast
    rw [h.pool, hLast]
    rfl
  · rw [h.pool]
    cases hLast : samples.getLast? with
    | none =>
        cases List.getLast?_eq_none_iff.mp hLast
        exact iff_of_true rfl rfl
    | some last =>
        have hSome : samples.length ≠ 0 := by
          rintro hNone
          cases List.eq_nil_of_length_eq_zero hNone
          cases hLast
        refine iff_of_false (fun hSame => ?_) hSome
        have hLength := congrArg List.length hSame
        simp at hLength
  · intro series rates hMem
    have hPasses : ∃ field : Sample → Int, series = samples.map field ∧
        rates = passes (tps interval) (samples.map field) := by
      simp only [List.mem_cons, Prod.mk.injEq, List.not_mem_nil, or_false] at hMem
      rcases hMem with ⟨rfl, rfl⟩ | ⟨rfl, rfl⟩ | ⟨rfl, rfl⟩
      · exact ⟨_, rfl, h.stableTPS⟩
      · exact ⟨_, rfl, h.committedTPS⟩
      · exact ⟨_, rfl, h.executedTPS⟩
    obtain ⟨field, rfl, rfl⟩ := hPasses
    have hLength := length_passes_tps interval (samples.map field)
    have hOne := onePerSample_passes_iff interval (samples.map field)
    rw [List.length_map] at hLength hOne
    exact ⟨hLength, hOne⟩

/-- After two rounds with 5 and 9 received transactions, of which 3 and 4 are in the pool, the
list of the pool has three entries, and so has each list of rates. -/
theorem collectData_two_rounds :
    let sample : Int → Int → Sample := fun received pool =>
      ⟨0, 0, 0, received, pool, "0", "0", "0"⟩
    let m := rounds 1000000000 [sample 5 3, sample 9 4]
    m.poolTxNumList = [5, 9, 4] ∧ m.stableTPSList.length = 3 ∧ m.committedTPSList.length = 3 ∧
      m.executedTPSList.length = 3 :=
  ⟨rfl, rfl, rfl, rfl⟩

end MonitorManager
end Bamboo
