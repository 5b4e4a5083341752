import IronGraph.Types
import IronGraph.Library.Outcome

/-!
Admission to the device memory. Every call holds the mutex of the ledger from its checks to its last
change, so a run is a sequence of calls. The shared classes are charged before the check, and an
overflow leaves the charge behind.
-/

namespace IronGraph.Memory

open Outcome List Nat Function

inductive SharedMemoryClass where
  | modelWeights
  | embeddingWeights
  | encoderState
  | graphMemory
  | deviceOverhead
deriving Repr, DecidableEq

def SharedMemoryClass.name : SharedMemoryClass → String
  | .modelWeights => "ModelWeights"
  | .embeddingWeights => "EmbeddingWeights"
  | .encoderState => "EncoderState"
  | .graphMemory => "GraphMemory"
  | .deviceOverhead => "DeviceOverhead"

inductive Account where
  | scratch
  | staging
  | shared (memory : SharedMemoryClass)
deriving Repr, DecidableEq

def accounts : List Account :=
  [.scratch, .staging, .shared .modelWeights, .shared .embeddingWeights, .shared .encoderState,
    .shared .graphMemory, .shared .deviceOverhead]

/-- The limit and the ledger, with the bytes of the live guards of each total beside it. A
publication whose closure fails keeps the staging bytes of its reservation for good, and they are
counted as stranded. -/
structure Governor where
  limitBytes : Nat
  reservedBytes : Nat
  persistentGraphBytes : Nat
  pinnedGenerationBytes : Nat
  totals : Account → Nat
  generation : Nat
  pins : List Nat
  guards : Account → List Nat
  stranded : Nat

inductive View where
  | root
  | pinned (pin : Nat)

inductive Outcome where
  | done
  | refused (error : Error)
  -- the closure of a publication has run and failed
  | failed (error : Error)
deriving DecidableEq

def checkedAdd (left right : Nat) (error : Error) : Result Nat :=
  if left + right < u64Limit then .ok (left + right) else .error error

def checkedSub (left right : Nat) (error : Error) : Result Nat :=
  if right ≤ left then .ok (left - right) else .error error

def admissionFailure (message : String) : Error := .new .gpuAdmissionFailure message

def memoryAccountingOverflow : Error := admissionFailure "device persistent byte accounting overflow"

namespace Governor

variable (g : Governor) {error : Error} {left right : Nat} {account : Account}

def new (limitBytes reservedBytes : Nat) : Governor where
  limitBytes
  reservedBytes
  persistentGraphBytes := 0
  pinnedGenerationBytes := 0
  totals _ := 0
  generation := 0
  pins := []
  guards _ := []
  stranded := 0

variable (persistent : Nat) (totals : Account → Nat)

def totalWith : Result Nat := (persistent :: accounts.map totals).foldlM
    (fun total bytes => checkedAdd total bytes (admissionFailure "device byte accounting overflow"))
      g.reservedBytes

def persistentTotal : Result Nat :=
  checkedAdd g.persistentGraphBytes g.pinnedGenerationBytes memoryAccountingOverflow

def currentTotal : Result Nat := do
  g.totalWith (← g.persistentTotal) g.totals

def admitTotal (refusal : Error) : Result Nat := do
  let total ← g.totalWith persistent totals
  require (decide (total ≤ g.limitBytes)) refusal
  return total

def checkHost (available : Option Nat) (growth : Nat) (message : Nat → String) : Result Unit :=
  match available with
  | none => .ok ()
  | some available => require (decide (growth ≤ available)) (admissionFailure (message available))

def setTotal (account : Account) (total : Nat) (guards : List Nat) : Governor :=
  { g with totals := update g.totals account total, guards := update g.guards account guards }

def settle : Result Governor → Governor × Outcome
  | .ok next => (next, .done)
  | .error error => (g, .refused error)

/-- The governor once a view has a resident generation of this many bytes, and its persistent total. -/
def replaceGeneration (bytes : Nat) : View → Result (Nat × Governor)
  | .root => do
    let persistent ← checkedAdd bytes g.pinnedGenerationBytes memoryAccountingOverflow
    return (persistent, { g with persistentGraphBytes := bytes })
  | .pinned pin => do
    let prior ← orElse g.pins[pin]? (.internal "pinned governor has no generation reservation")
    let without ← checkedSub g.pinnedGenerationBytes prior memoryAccountingOverflow
    let next ← checkedAdd without bytes memoryAccountingOverflow
    let persistent ← checkedAdd g.persistentGraphBytes next memoryAccountingOverflow
    return (persistent, { g with pinnedGenerationBytes := next, pins := g.pins.set pin bytes })

def nextGeneration (changes : Bool) : View → Result Nat
  | .root => if changes then checkedAdd g.generation 1 memoryAccountingOverflow else .ok g.generation
  | .pinned _ => .ok g.generation

def admitPersistent (view : View) (bytes : Nat) : Governor × Outcome := g.settle do
    let (persistent, next) ← g.replaceGeneration bytes view
    let _ ← g.admitTotal persistent g.totals
      (admissionFailure "complete graph does not fit beside the admitted model/runtime and safety reserve")
    let generation ← g.nextGeneration (bytes != g.persistentGraphBytes) view
    return { next with generation }

def capLimit (hardwareLimitBytes : Nat) : Governor × Outcome :=
  if hardwareLimitBytes = 0 then
    (g, .done)
  else
    g.settle do
      let effective := min g.limitBytes hardwareLimitBytes
      let admitted ← g.currentTotal
      require (decide (admitted ≤ effective)) (admissionFailure
        (s!"already admitted device/unified-memory " ++
          s!"allocations ({admitted} bytes) exceed the measured hardware working-set limit ({effective} bytes)"))
      return { g with limitBytes := effective }

def pinGeneration (bytes : Nat) : Governor × Outcome := g.settle do
    let next ← checkedAdd g.pinnedGenerationBytes bytes memoryAccountingOverflow
    let persistent ← checkedAdd g.persistentGraphBytes next memoryAccountingOverflow
    let _ ← g.admitTotal persistent g.totals
      (admissionFailure "insufficient headroom to pin an immutable resident project generation")
    return { g with pinnedGenerationBytes := next, pins := g.pins ++ [bytes] }

def charge (account : Account) (refusal : Error) (total : Nat) (guards : List Nat) :
    Result Governor := do
  let _ ← g.admitTotal (← g.persistentTotal) (update g.totals account total) refusal
  return g.setTotal account total guards

section

variable (memory : SharedMemoryClass)

/-- The total of a shared class is written before the sum is formed. It is put back when the sum is
above the limit, and stays when there is no sum. -/
def chargeShared (refusal : Error) (total : Nat) (guards : List Nat) : Governor × Outcome :=
  let charged := g.setTotal (.shared memory) total (g.guards (.shared memory))
  match charged.currentTotal with
  | .error error => (charged, .refused error)
  | .ok _ => g.settle (g.charge (.shared memory) refusal total guards)

def reserve (account : Account) (bytes : Nat) (overflow : String)
    (charge : Nat → List Nat → Governor × Outcome) : Governor × Outcome :=
  match checkedAdd (g.totals account) bytes (admissionFailure overflow) with
  | .error error => (g, .refused error)
  | .ok total => charge total (g.guards account ++ [bytes])

def reserveScratch (bytes : Nat) : Governor × Outcome :=
  g.reserve .scratch bytes "device scratch byte accounting overflow" fun total guards =>
    g.settle (g.charge .scratch (.asRetryable .gpuAdmissionFailure
      "insufficient admitted query scratch beside graph and model allocations" (some 10)) total guards)

def reserveStaging (available : Option Nat) (bytes : Nat) : Governor × Outcome :=
  g.reserve .staging bytes "device staging byte accounting overflow" fun total guards =>
    g.settle do
      let charged ← g.charge .staging (admissionFailure
        "insufficient peak memory for atomic project-image replacement beside model allocations")
          total guards
      checkHost available bytes fun available =>
        s!"staging needs {bytes} bytes with {available} host bytes available"
      return charged

def reserveShared (bytes : Nat) : Governor × Outcome :=
  g.reserve (.shared memory) bytes "shared model/runtime byte accounting overflow" <|
    g.chargeShared memory (admissionFailure
      (s!"insufficient shared device/unified memory for {memory.name}: requested {bytes} bytes"))

def resize (account : Account) (index bytes : Nat) (underflow : String) (overflow : Error)
    (charge : Nat → List Nat → Governor × Outcome) : Governor × Outcome :=
  match (g.guards account)[index]? with
  | none => (g, .done)
  | some prior =>
    if bytes = prior then (g, .done)
    else
      match (do
        checkedAdd (← checkedSub (g.totals account) prior (.internal underflow)) bytes overflow) with
      | .error error => (g, .refused error)
      | .ok total => charge total ((g.guards account).set index bytes)

def resizeStaging (index bytes : Nat) : Governor × Outcome :=
  g.resize .staging index
    bytes "device staging reservation accounting underflow" memoryAccountingOverflow
    fun total guards => g.settle (g.charge .staging
      (admissionFailure "insufficient peak memory to grow the atomic replacement stage") total guards)

def resizeScratch (index bytes : Nat) : Governor × Outcome :=
  g.resize .scratch index bytes "device scratch reservation accounting underflow"
    (admissionFailure "device scratch reservation accounting overflow") fun total guards =>
      g.settle (g.charge .scratch (admissionFailure
        "insufficient admitted query scratch beside graph and model allocations") total guards)

def resizeShared (index bytes : Nat) : Governor × Outcome :=
  g.resize (.shared memory) index bytes "shared memory reservation accounting underflow"
    (admissionFailure "measured shared memory byte accounting overflow") <|
      g.chargeShared memory (admissionFailure
        (s!"measured {memory.name} allocation of {bytes} bytes exceeds " ++
        "the shared device/unified-memory budget"))

/-- A reservation of staging bytes that is to become the persistent total, or the generation of a
pinned view. -/
structure Publication where
  view : View
  reservation : Nat
  stagedBytes : Nat
  persistentBytes : Nat
  existingAllocationBytes : Nat
  available : Option Nat
  closure : Result Unit

def prepareStagingPublication (publication : Publication) (bytes : Nat) (guards : List Nat) :
    Result Governor := do
  let remaining ← checkedSub (g.totals .staging) bytes (.internal "device staging accounting underflow")
  let generation ← g.nextGeneration true publication.view
  let (persistent, next) ← (g.setTotal .staging remaining guards).replaceGeneration
    publication.persistentBytes publication.view
  let nextTotal ← g.admitTotal persistent next.totals
    (admissionFailure "replacement project set no longer fits the admitted device budget")
  let current ← g.currentTotal
  let growth := nextTotal - current - publication.existingAllocationBytes
  checkHost publication.available growth fun available =>
    s!"admitting {growth} more bytes exceeds the {available} bytes the host has free; " ++
      "the device budget still allows it but the machine does not"
  return { next with generation }

def dropGuard (account : Account) (index : Nat) : Governor := match (g.guards account)[index]? with
  | none => g
  | some bytes => g.setTotal account (g.totals account - bytes) ((g.guards account).eraseIdx index)

/-- A commit is a publication whose closure does nothing and whose allocations are all new. -/
def publishStaging (publication : Publication) : Governor × Outcome :=
  match (g.guards .staging)[publication.reservation]? with
  | none => (g, .done)
  | some bytes =>
    let guards := (g.guards .staging).eraseIdx publication.reservation
    match (do
      require (decide (publication.existingAllocationBytes ≤ publication.persistentBytes))
        (Error.internal "existing allocation bytes exceed resident bytes")
      require (decide (publication.stagedBytes ≤ bytes))
        (admissionFailure "device replacement exceeded or mismatched its peak reservation")
      g.prepareStagingPublication publication bytes guards) with
    -- The call has taken the reservation by value, and drops it before it returns. The drop takes
    -- the mutex again: if another call comes in between, the refused one is to the ledger no more
    -- than the drop of its guard.
    | .error error => (g.dropGuard .staging publication.reservation, .refused error)
    | .ok next =>
      match publication.closure with
      | .ok () => (next, .done)
      | .error error =>
        ({ g with guards := update g.guards .staging guards, stranded := g.stranded + bytes },
          .failed error)

def dropPin (pin : Nat) : Governor :=
  { g with
    pinnedGenerationBytes := g.pinnedGenerationBytes - g.pins.getD pin 0, pins := g.pins.eraseIdx pin }

def total : Nat :=
  g.reservedBytes + (g.persistentGraphBytes + g.pinnedGenerationBytes) + (accounts.map g.totals).sum

/-- A machine word can count the sum of all totals with this one for the class, or not even this one. -/
def Countable (total : Nat) : Prop := total < u64Limit →
    (g.setTotal (.shared memory) total []).total < u64Limit

end

inductive Step (counted : Prop) (g : Governor) : Governor × Outcome → Prop
  | admitPersistent (view : View) (bytes : Nat) : Step counted g (g.admitPersistent view bytes)
  | capLimit (hardwareLimitBytes : Nat) : Step counted g (g.capLimit hardwareLimitBytes)
  | pinGeneration (bytes : Nat) : Step counted g (g.pinGeneration bytes)
  | reserveScratch (bytes : Nat) : Step counted g (g.reserveScratch bytes)
  | reserveStaging (available : Option Nat) (bytes : Nat) :
      Step counted g (g.reserveStaging available bytes)
  | reserveShared (memory : SharedMemoryClass) (bytes : Nat)
      (fits : counted → g.Countable memory (g.totals (.shared memory) + bytes)) :
      Step counted g (g.reserveShared memory bytes)
  | resizeScratch (index bytes : Nat) : Step counted g (g.resizeScratch index bytes)
  | resizeStaging (index bytes : Nat) : Step counted g (g.resizeStaging index bytes)
  | resizeShared (memory : SharedMemoryClass) (index bytes : Nat)
      (fits : counted → ∀ prior, (g.guards (.shared memory))[index]? = some prior →
        g.Countable memory (g.totals (.shared memory) - prior + bytes)) :
      Step counted g (g.resizeShared memory index bytes)
  | publishStaging (publication : Publication) : Step counted g (g.publishStaging publication)
  | dropGuard (account : Account) (index : Nat) : Step counted g (g.dropGuard account index, .done)
  | dropPin (pin : Nat) : Step counted g (g.dropPin pin, .done)

/-- Every total is the sum of its live guards, the staging total with what failed publications have
stranded. -/
def Sound : Prop :=
  ∀ account, g.totals account = (g.guards account).sum + if account = .staging then g.stranded else 0

def Within : Prop := g.total ≤ g.limitBytes

structure Keeps (g : Governor) (after : Governor × Outcome) : Prop where
  sound : g.Sound → after.1.Sound
  within : g.Within → after.1.Within
  refused : ∀ error, after.2 = .refused error → after.1 = g ∨
    ∃ publication, after = g.publishStaging publication

variable {g next : Governor} {persistent sum bytes index : Nat} {totals : Account → Nat}
  {guards : List Nat}

theorem checkedAdd_eq_ok : checkedAdd left right error = .ok sum ↔
    left + right < u64Limit ∧ sum = left + right := by
  unfold checkedAdd
  split <;> simp_all [eq_comm]

theorem checkedSub_eq_ok : checkedSub left right error = .ok sum ↔
    right ≤ left ∧ sum = left - right := by
  unfold checkedSub
  split <;> simp_all [eq_comm]

theorem foldlM_checkedAdd {items : List Nat} {start : Nat}
    (added : items.foldlM (fun total bytes => checkedAdd total bytes error) start = .ok sum) :
    sum = start + items.sum := by
  induction items generalizing start with
  | nil => cases added; rfl
  | cons item rest ih =>
    rw [foldlM_cons, bind_eq_ok] at added
    obtain ⟨total, first, added⟩ := added
    rw [ih added, (checkedAdd_eq_ok.mp first).2, sum_cons, add_assoc]

theorem foldlM_checkedAdd_fits {items : List Nat} {start : Nat} (fits : start + items.sum < u64Limit) :
    items.foldlM (fun total bytes => checkedAdd total bytes error) start = .ok (start + items.sum) := by
  induction items generalizing start with
  | nil => rfl
  | cons item rest ih =>
    rw [sum_cons, ← add_assoc] at fits ⊢
    rw [foldlM_cons, checkedAdd, if_pos (lt_of_le_of_lt (le_add_right _ _) fits)]
    exact ih fits

theorem admitTotal_ok (admitted : g.admitTotal persistent totals error = .ok sum) :
    g.reservedBytes + persistent + (accounts.map totals).sum ≤ g.limitBytes := by
  obtain ⟨total, summed, admitted⟩ := bind_eq_ok.mp admitted
  obtain ⟨_, small, _⟩ := bind_eq_ok.mp admitted
  rw [require_eq_ok, decide_eq_true_eq, foldlM_checkedAdd summed, sum_cons, ← add_assoc] at small
  exact small

theorem currentTotal_ok (summed : g.currentTotal = .ok sum) : sum = g.total := by
  obtain ⟨persistent, whole, summed⟩ := bind_eq_ok.mp summed
  rw [foldlM_checkedAdd summed, (checkedAdd_eq_ok.mp whole).2, sum_cons, ← add_assoc]
  rfl

theorem currentTotal_fits (fits : g.total < u64Limit) : g.currentTotal = .ok g.total := by
  have parts : g.total = g.reservedBytes +
      ((g.persistentGraphBytes + g.pinnedGenerationBytes) :: accounts.map g.totals).sum := by
    rw [sum_cons, ← add_assoc]
    rfl
  rw [parts] at fits ⊢
  rw [currentTotal, persistentTotal, checkedAdd, if_pos (by rw [sum_cons] at fits; omega)]
  exact foldlM_checkedAdd_fits fits

theorem Keeps.same (outcome : Outcome) : Keeps g (g, outcome) := ⟨id, id, fun _ _ => .inl rfl⟩

theorem Keeps.settle {result : Result Governor}
    (kept : ∀ next, result = .ok next → (g.Sound → next.Sound) ∧ (g.Within → next.Within)) :
    Keeps g (g.settle result) := by
  cases result with
  | ok next => exact ⟨(kept next rfl).1, (kept next rfl).2, nofun⟩
  | error error => exact .same _

theorem Sound.setTotal (sound : g.Sound) (balanced : sum + (g.guards account).sum =
    g.totals account + guards.sum) :
    (g.setTotal account sum guards).Sound := by
  intro other
  by_cases same : other = account
  · subst same
    have before := sound other
    simp only [Governor.setTotal, update_self]
    omega
  · simpa only [Governor.setTotal, update_of_ne same] using sound other

theorem sum_eraseIdx (found : guards[index]? = some bytes) :
    bytes + (guards.eraseIdx index).sum = guards.sum := by
  obtain ⟨inside, rfl⟩ := List.getElem?_eq_some_iff.mp found
  exact List.sum_cons.symm.trans (List.getElem_cons_eraseIdx_perm inside).sum_eq

theorem sum_set (found : guards[index]? = some bytes) (other : Nat) :
    (guards.set index other).sum + bytes = guards.sum + other := by
  obtain ⟨inside, rfl⟩ := List.getElem?_eq_some_iff.mp found
  have replaced := (List.set_perm_cons_eraseIdx inside other).sum_eq
  have whole := sum_eraseIdx found
  rw [sum_cons] at replaced
  omega

theorem charge_kept (charged : g.charge account error sum guards = .ok next)
    (balanced : sum + (g.guards account).sum = g.totals account + guards.sum) :
    (g.Sound → next.Sound) ∧ (g.Within → next.Within) := by
  obtain ⟨persistent, whole, charged⟩ := bind_eq_ok.mp charged
  obtain ⟨_, admitted, charged⟩ := bind_eq_ok.mp charged
  cases charged
  have within := admitTotal_ok admitted
  rw [(checkedAdd_eq_ok.mp whole).2] at within
  exact ⟨fun sound => sound.setTotal balanced, fun _ => within⟩

theorem chargeShared_keeps {memory : SharedMemoryClass} (counted : g.Countable memory sum)
    (small : sum < u64Limit)
    (balanced : sum + (g.guards (.shared memory)).sum = g.totals (.shared memory) + guards.sum) :
    Keeps g (g.chargeShared memory error sum guards) := by
  have summed := currentTotal_fits (g := g.setTotal (.shared memory) sum
    (g.guards (.shared memory))) (counted small)
  rw [chargeShared, summed]
  exact .settle fun next charged => charge_kept charged balanced

theorem reserve_keeps {overflow : String} {charge : Nat → List Nat → Governor × Outcome}
    (kept : g.totals account + bytes < u64Limit →
      Keeps g (charge (g.totals account + bytes) (g.guards account ++ [bytes]))) :
    Keeps g (g.reserve account bytes overflow charge) := by
  unfold reserve
  split
  · exact .same _
  next total added =>
    obtain ⟨small, rfl⟩ := checkedAdd_eq_ok.mp added
    exact kept small

theorem resize_keeps {underflow : String} {charge : Nat → List Nat → Governor × Outcome}
    (kept : ∀ prior, (g.guards account)[index]? = some prior →
      g.totals account - prior + bytes < u64Limit → prior ≤ g.totals account →
      Keeps g (charge (g.totals account - prior + bytes) ((g.guards account).set index bytes))) :
    Keeps g (g.resize account index bytes underflow error charge) := by
  unfold resize
  split
  · exact .same _
  next prior found =>
    split
    · exact .same _
    · split
      · exact .same _
      next total resized =>
        obtain ⟨without, less, added⟩ := bind_eq_ok.mp resized
        obtain ⟨inside, rfl⟩ := checkedSub_eq_ok.mp less
        obtain ⟨small, rfl⟩ := checkedAdd_eq_ok.mp added
        exact kept prior found small inside

theorem replaceGeneration_kept {view : View}
    (replaced : g.replaceGeneration bytes view = .ok (persistent, next)) :
    (g.Sound → next.Sound) ∧
    next.total = g.reservedBytes + persistent + (accounts.map next.totals).sum ∧
      next.totals = g.totals ∧ next.limitBytes = g.limitBytes := by
  cases view with
  | root =>
    obtain ⟨_, whole, replaced⟩ := bind_eq_ok.mp replaced
    cases replaced
    exact ⟨id, by rw [(checkedAdd_eq_ok.mp whole).2]; rfl, rfl, rfl⟩
  | pinned pin =>
    obtain ⟨_, _, replaced⟩ := bind_eq_ok.mp replaced
    obtain ⟨_, _, replaced⟩ := bind_eq_ok.mp replaced
    obtain ⟨_, _, replaced⟩ := bind_eq_ok.mp replaced
    obtain ⟨_, whole, replaced⟩ := bind_eq_ok.mp replaced
    cases replaced
    exact ⟨id, by rw [(checkedAdd_eq_ok.mp whole).2]; rfl, rfl, rfl⟩

theorem admitPersistent_keeps (view : View) : Keeps g (g.admitPersistent view bytes) := by
  refine .settle fun next admitted => ?_
  obtain ⟨⟨persistent, published⟩, replaced, admitted⟩ := bind_eq_ok.mp admitted
  obtain ⟨_, fits, admitted⟩ := bind_eq_ok.mp admitted
  obtain ⟨_, _, admitted⟩ := bind_eq_ok.mp admitted
  cases admitted
  obtain ⟨sound, whole, same, limit⟩ := replaceGeneration_kept replaced
  have within := admitTotal_ok fits
  rw [← same, ← whole, ← limit] at within
  exact ⟨sound, fun _ => within⟩

theorem capLimit_keeps (hardwareLimitBytes : Nat) : Keeps g (g.capLimit hardwareLimitBytes) := by
  unfold capLimit
  split
  · exact .same _
  · refine .settle fun next capped => ?_
    obtain ⟨_, summed, capped⟩ := bind_eq_ok.mp capped
    obtain ⟨_, small, capped⟩ := bind_eq_ok.mp capped
    cases capped
    rw [require_eq_ok, decide_eq_true_eq, currentTotal_ok summed] at small
    exact ⟨id, fun _ => small⟩

theorem pinGeneration_keeps : Keeps g (g.pinGeneration bytes) := by
  refine .settle fun next pinned => ?_
  obtain ⟨_, _, pinned⟩ := bind_eq_ok.mp pinned
  obtain ⟨_, whole, pinned⟩ := bind_eq_ok.mp pinned
  obtain ⟨_, fits, pinned⟩ := bind_eq_ok.mp pinned
  cases pinned
  rw [(checkedAdd_eq_ok.mp whole).2] at fits
  exact ⟨id, fun _ => admitTotal_ok fits⟩

theorem prepareStagingPublication_kept {publication : Publication}
    (balanced : bytes + guards.sum = (g.guards .staging).sum)
    (prepared : g.prepareStagingPublication publication bytes guards = .ok next) :
    (g.Sound → next.Sound) ∧ next.Within := by
  obtain ⟨remaining, less, prepared⟩ := bind_eq_ok.mp prepared
  obtain ⟨inside, rfl⟩ := checkedSub_eq_ok.mp less
  obtain ⟨_, _, prepared⟩ := bind_eq_ok.mp prepared
  obtain ⟨⟨persistent, published⟩, replaced, prepared⟩ := bind_eq_ok.mp prepared
  obtain ⟨_, fits, prepared⟩ := bind_eq_ok.mp prepared
  obtain ⟨_, _, prepared⟩ := bind_eq_ok.mp prepared
  obtain ⟨_, _, prepared⟩ := bind_eq_ok.mp prepared
  cases prepared
  obtain ⟨sound, whole, _, limit⟩ := replaceGeneration_kept replaced
  have within := admitTotal_ok fits
  refine ⟨fun before => sound (before.setTotal (by omega)), ?_⟩
  exact le_trans (le_of_eq whole) (le_trans within (le_of_eq limit.symm))

theorem dropGuard_keeps (account : Account) (index : Nat) :
    Keeps g (g.dropGuard account index, .done) := by
  unfold dropGuard
  split
  · exact .same _
  next bytes found =>
    have balanced := sum_eraseIdx found
    refine ⟨fun sound => sound.setTotal ?_, fun within => ?_, nofun⟩
    · have before := sound account
      omega
    · refine Nat.le_trans (Nat.add_le_add_left (sum_le_sum fun other _ => ?_) _) within
      by_cases same : other = account
      · subst same
        simp [setTotal]
      · simp [setTotal, same]

theorem publishStaging_keeps (publication : Publication) : Keeps g (g.publishStaging publication) := by
  suffices kept : (g.Sound → (g.publishStaging publication).1.Sound) ∧
      (g.Within → (g.publishStaging publication).1.Within) from ⟨kept.1, kept.2,
        fun _ _ => .inr ⟨publication, rfl⟩⟩
  unfold publishStaging
  split
  · exact ⟨id, id⟩
  next bytes found =>
    have balanced := sum_eraseIdx found
    dsimp only
    split
    · have dropped : Keeps g (g.dropGuard .staging publication.reservation, _) := dropGuard_keeps _ _
      exact ⟨dropped.sound, dropped.within⟩
    next next prepared =>
      obtain ⟨_, _, prepared⟩ := bind_eq_ok.mp prepared
      obtain ⟨_, _, prepared⟩ := bind_eq_ok.mp prepared
      have kept := prepareStagingPublication_kept balanced prepared
      split
      · exact ⟨kept.1, fun _ => kept.2⟩
      · refine ⟨fun sound other => ?_, id⟩
        have before := sound other
        by_cases same : other = .staging
        · subst same
          simp only [if_true, update_self] at before ⊢
          omega
        · simpa only [if_neg same, update_of_ne same] using before

theorem dropPin_keeps (pin : Nat) : Keeps g (g.dropPin pin, .done) := by
  refine ⟨id, fun within => ?_, nofun⟩
  unfold Within total at within ⊢
  simp only [dropPin]
  omega

theorem Step.keeps {after : Governor × Outcome} (step : Step True g after) : Keeps g after := by
  cases step with
  | admitPersistent view bytes => exact admitPersistent_keeps view
  | capLimit hardwareLimitBytes => exact capLimit_keeps hardwareLimitBytes
  | pinGeneration bytes => exact pinGeneration_keeps
  | reserveScratch bytes =>
    exact reserve_keeps fun _ => .settle fun next charged => charge_kept charged (by simp; omega)
  | reserveStaging available bytes =>
    refine reserve_keeps fun _ => .settle fun next charged => ?_
    obtain ⟨_, charged, checked⟩ := bind_eq_ok.mp charged
    obtain ⟨_, _, checked⟩ := bind_eq_ok.mp checked
    cases checked
    exact charge_kept charged (by simp; omega)
  | reserveShared memory bytes fits =>
    exact reserve_keeps fun small => chargeShared_keeps (fits trivial) small (by simp; omega)
  | resizeScratch index bytes | resizeStaging index bytes =>
    refine resize_keeps fun prior found _ inside => .settle fun next charged => charge_kept charged ?_
    have replaced := sum_set found bytes
    omega
  | resizeShared memory index bytes fits =>
    refine resize_keeps fun prior found small inside =>
      chargeShared_keeps (fits trivial prior found) small ?_
    have replaced := sum_set found bytes
    omega
  | publishStaging publication => exact publishStaging_keeps publication
  | dropGuard account index => exact dropGuard_keeps account index
  | dropPin pin => exact dropPin_keeps pin

end Governor

end IronGraph.Memory
