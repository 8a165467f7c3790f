import TraceHarbor.Lib.OrdMap
import TraceHarbor.Lib.Run

/-!
# Attribution of File Operations

Calls of `open`, `read`, `write` and `close` on the main thread reach the collector, which keeps an
`IOInfo` for each descriptor that was opened there. `OnOpen` keeps an entry that is already there, so an
entry stays when another thread closes its descriptor, and is taken for that of the next file with the
same descriptor.
-/

namespace TraceHarbor.IoCanary

open Lib

/-! ## The collector -/

/-- `int` arithmetic. -/
def wrap32 (x : ℤ) : ℤ := Int.bmod x (2 ^ 32)

/-- `long` and `int64_t` arithmetic. -/
def wrap64 (x : ℤ) : ℤ := Int.bmod x (2 ^ 64)

inductive FileOpType where
  | init
  | read
  | write
  deriving DecidableEq

structure JavaContext where
  threadId : ℤ
  threadName : String
  stack : String
  deriving DecidableEq

/-- `IOInfo`; times are in microseconds. -/
structure IOInfo where
  path : String
  javaContext : JavaContext
  startTime : ℤ
  opType : FileOpType := .init
  opCnt : ℤ := 0
  bufferSize : ℤ := 0
  opSize : ℤ := 0
  rwCost : ℤ := 0
  maxContinualRwCostTime : ℤ := 0
  maxOnceRwCostTime : ℤ := 0
  currentContinualRwTime : ℤ := 0
  lastRwTime : ℤ := 0
  fileSize : ℤ := 0
  totalCost : ℤ := 0
  deriving DecidableEq

/-- `kContinualThreshold`. -/
def continualThreshold : ℤ := 8 * 1000

/-- What `CountRWInfo` does to the entry of a descriptor. -/
def IOInfo.countRWInfo (info : IOInfo) (opType : FileOpType) (opSize rwCost now : ℤ) : IOInfo :=
  let current :=
    if info.lastRwTime > 0 ∧ wrap64 (now - info.lastRwTime) < continualThreshold then
      wrap64 (info.currentContinualRwTime + rwCost)
    else rwCost
  { info with
    opCnt := wrap32 (info.opCnt + 1)
    opSize := wrap64 (info.opSize + opSize)
    rwCost := wrap64 (info.rwCost + rwCost)
    maxOnceRwCostTime := max info.maxOnceRwCostTime rwCost
    currentContinualRwTime := current
    maxContinualRwCostTime := max info.maxContinualRwCostTime current
    lastRwTime := now
    bufferSize := max info.bufferSize opSize
    opType := if info.opType = .init then opType else info.opType }

structure IOInfoCollector where
  infoMap : OrdMap ℤ IOInfo

namespace IOInfoCollector

variable (c : IOInfoCollector)

/-- `OnOpen`, at the time `now`. -/
def onOpen (pathname : String) (openRet : ℤ) (javaContext : JavaContext) (now : ℤ) :
    IOInfoCollector :=
  if openRet = -1 then c
  else
    match c.infoMap[openRet]? with
    | some _ => c
    | none => ⟨c.infoMap.insert openRet
        { path := pathname, javaContext := javaContext, startTime := now }⟩

/-- `OnRead` and `OnWrite`, which differ in the type of the operation. The `size_t` is converted to
`long`. -/
def onReadWrite (opType : FileOpType) (fd : ℤ) (size : ℕ) (ret cost now : ℤ) : IOInfoCollector :=
  if ret = -1 ∨ cost < 0 then c
  else
    match c.infoMap[fd]? with
    | none => c
    | some info => ⟨c.infoMap.insert fd (info.countRWInfo opType (wrap64 size) cost now)⟩

def onRead : ℤ → ℕ → ℤ → ℤ → ℤ → IOInfoCollector := c.onReadWrite .read

def onWrite : ℤ → ℕ → ℤ → ℤ → ℤ → IOInfoCollector := c.onReadWrite .write

/-- `OnClose`: the entry is delivered and erased, whatever `close` has returned. -/
def onClose (fd : ℤ) (fileSize now : ℤ) : IOInfoCollector × Option IOInfo :=
  match c.infoMap[fd]? with
  | none => (c, none)
  | some info =>
    (⟨c.infoMap.erase fd⟩,
      some { info with totalCost := wrap64 (now - info.startTime), fileSize := fileSize })

end IOInfoCollector

/-! ## The proxies -/

/-- A call and what the kernel returns. The context of an `open` is missing when the Java side
delivers none. -/
inductive IoCall where
  | open (pathname : String) (ret : ℤ) (context : Option JavaContext)
  | read (fd : ℤ) (size : ℕ) (ret cost : ℤ)
  | write (fd : ℤ) (size : ℕ) (ret cost : ℤ)
  | close (fd ret fileSize : ℤ)
  deriving DecidableEq

structure ThreadCall where
  thread : ℤ
  call : IoCall
  now : ℤ
  deriving DecidableEq

section Proxy

variable (main : ℤ) (c : IOInfoCollector)

/-- `ProxyOpen`, `ProxyRead`, `ProxyWrite` and `ProxyClose`, with what is delivered. -/
def proxy (e : ThreadCall) : IOInfoCollector × Option IOInfo :=
  if e.thread ≠ main then (c, none)
  else
    match e.call with
    | .open _ _ none => (c, none)
    | .open pathname ret (some context) =>
      if ret ≠ -1 then (c.onOpen pathname ret context e.now, none) else (c, none)
    | .read fd size ret cost => (c.onRead fd size ret cost e.now, none)
    | .write fd size ret cost => (c.onWrite fd size ret cost e.now, none)
    | .close fd _ fileSize => c.onClose fd fileSize e.now

def step (e : ThreadCall) : IOInfoCollector := (proxy main c e).1

def init : IOInfoCollector := ⟨∅⟩

/-- An `open` returns a descriptor that has no entry. -/
def Unrecorded (e : ThreadCall) : Prop :=
  match e.call with
  | .open _ ret _ => c.infoMap[ret]? = none
  | _ => True

instance (e : ThreadCall) : Decidable (Unrecorded c e) :=
  match e with
  | ⟨_, .open _ _ _, _⟩ => inferInstanceAs (Decidable (_ = none))
  | ⟨_, .read _ _ _ _, _⟩ | ⟨_, .write _ _ _ _, _⟩ | ⟨_, .close _ _ _, _⟩ => isTrue trivial

end Proxy

/-! ## Histories of a descriptor -/

/-- The path with which the call opens the descriptor. -/
def IoCall.opens (fd : ℤ) : IoCall → Option String
  | .open pathname ret _ => if ret = fd then some pathname else none
  | _ => none

/-- The size of the operation, if it is one of the main thread on the descriptor that succeeds. -/
def ThreadCall.counted (main fd : ℤ) (e : ThreadCall) : Option ℕ :=
  match e.call with
  | .read fd' size ret cost | .write fd' size ret cost =>
    if e.thread = main ∧ fd' = fd ∧ ret ≠ -1 ∧ 0 ≤ cost then some size else none
  | _ => none

/-- The sizes of the operations of the main thread on the descriptor. -/
def operations (main fd : ℤ) (calls : List ThreadCall) : List ℕ :=
  calls.filterMap (·.counted main fd)

/-- What is known of a descriptor after one more call. -/
def noteOpen (fd : ℤ) (known : Option (String × List ThreadCall)) (e : ThreadCall) :
    Option (String × List ThreadCall) :=
  match e.call.opens fd with
  | some path => some (path, [])
  | none => known.map fun x => (x.1, x.2 ++ [e])

/-- The path of the latest `open` by any thread that returned the descriptor, and the calls since. -/
def lastOpen (fd : ℤ) (es : List ThreadCall) : Option (String × List ThreadCall) :=
  es.foldl (noteOpen fd) none

def descriptors (fds : List ℤ) (e : ThreadCall) : List ℤ :=
  match e.call with
  | .open _ ret _ => if ret = -1 then fds else ret :: fds
  | .close fd _ _ => fds.filter (· ≠ fd)
  | _ => fds

/-- The kernel returns from `open` only descriptors that are closed. -/
def OpensClosed : List ThreadCall → Prop :=
  Meets descriptors (fun fds e => ∀ fd ∈ fds, e.call.opens fd = none) []

instance (es : List ThreadCall) : Decidable (OpensClosed es) :=
  inferInstanceAs (Decidable (Meets ..))

/-- The entry has the path, and counts operations of the given sizes. -/
structure IOInfo.Counts (info : IOInfo) (path : String) (sizes : List ℕ) : Prop where
  path_eq : info.path = path
  opCnt_eq : info.opCnt = wrap32 sizes.length
  opSize_eq : info.opSize = wrap64 sizes.sum

/-! ## The invariant -/

section Attributed

variable {main : ℤ} {past : List ThreadCall} {c : IOInfoCollector}

/-- Each entry is that of the latest `open`, and counts the operations since. -/
def Attributed (main : ℤ) (past : List ThreadCall) (c : IOInfoCollector) : Prop :=
  ∀ (fd : ℤ) (info : IOInfo), c.infoMap[fd]? = some info →
    ∃ path calls, lastOpen fd past = some (path, calls) ∧
      info.Counts path (operations main fd calls)

theorem attributed_init : Attributed main [] init := by
  intro fd info h
  simp [init] at h

theorem lastOpen_snoc (fd : ℤ) (past : List ThreadCall) (e : ThreadCall) :
    lastOpen fd (past ++ [e]) = noteOpen fd (lastOpen fd past) e := by
  simp [lastOpen]

theorem operations_snoc (fd : ℤ) (calls : List ThreadCall) (e : ThreadCall) :
    operations main fd (calls ++ [e]) = operations main fd calls ++ (e.counted main fd).toList := by
  cases hsize : e.counted main fd <;> simp [operations, hsize]

theorem counts_nil (path : String) (context : JavaContext) (now : ℤ) :
    IOInfo.Counts { path := path, javaContext := context, startTime := now } path [] :=
  ⟨rfl, show 0 = wrap32 (0 : ℕ) by decide, show 0 = wrap64 (0 : ℕ) by decide⟩

theorem IOInfo.Counts.countRWInfo {info : IOInfo} {path : String} {sizes : List ℕ}
    (h : info.Counts path sizes) (opType : FileOpType) (size : ℕ) (cost now : ℤ) :
    (info.countRWInfo opType (wrap64 size) cost now).Counts path (sizes ++ [size]) := by
  refine ⟨h.path_eq, ?_, ?_⟩
  · simp only [IOInfo.countRWInfo, h.opCnt_eq, wrap32, Int.bmod_add_bmod, List.length_append,
      List.length_singleton, Nat.cast_add, Nat.cast_one]
  · simp only [IOInfo.countRWInfo, h.opSize_eq, wrap64, Int.bmod_add_bmod, Int.add_bmod_bmod,
      List.sum_append, List.sum_singleton, Nat.cast_add]

theorem Attributed.keep (h : Attributed main past c) {e : ThreadCall} {fd : ℤ} {info : IOInfo}
    (hget : c.infoMap[fd]? = some info) (hop : e.call.opens fd = none)
    (hcntd : e.counted main fd = none) :
    ∃ path calls, lastOpen fd (past ++ [e]) = some (path, calls) ∧
      info.Counts path (operations main fd calls) := by
  obtain ⟨path, calls, hlast, hcnts⟩ := h fd info hget
  refine ⟨path, calls ++ [e], ?_, ?_⟩
  · rw [lastOpen_snoc, noteOpen, hop, hlast]
    rfl
  · rw [operations_snoc, hcntd]
    simpa using hcnts

theorem infoMap_onOpen {pathname : String} {ret now : ℤ} {context : JavaContext} (hret : ret ≠ -1)
    (hfree : c.infoMap[ret]? = none) : (c.onOpen pathname ret context now).infoMap =
      c.infoMap.insert ret { path := pathname, javaContext := context, startTime := now } := by
  simp only [IOInfoCollector.onOpen, if_neg hret, hfree]

section

variable (h : Attributed main past c)

include h

/-- **`OnOpen`** makes the entry of a descriptor that has none. -/
theorem Attributed.onOpen {pathname : String} {ret now : ℤ} {context : JavaContext}
    (hret : ret ≠ -1) (hfree : c.infoMap[ret]? = none) (thread : ℤ) :
    Attributed main (past ++ [⟨thread, .open pathname ret (some context), now⟩])
      (c.onOpen pathname ret context now) := by
  intro fd info hget
  rw [infoMap_onOpen hret hfree, OrdMap.get_insert] at hget
  split_ifs at hget with hfd
  · cases hget
    refine ⟨pathname, [], ?_, counts_nil ..⟩
    rw [lastOpen_snoc, noteOpen, IoCall.opens, if_pos hfd.symm]
  · exact h.keep hget (by simp [IoCall.opens, Ne.symm hfd]) rfl

theorem Attributed.open {pathname : String} {ret : ℤ} (hfree : c.infoMap[ret]? = none)
    (thread now : ℤ) (context : Option JavaContext) :
    Attributed main (past ++ [⟨thread, .open pathname ret context, now⟩]) c := by
  intro fd info hget
  have hne : ret ≠ fd := by
    rintro rfl
    exact absurd (hfree.symm.trans hget) nofun
  exact h.keep hget (by simp [IoCall.opens, hne]) rfl

theorem Attributed.otherThread {e : ThreadCall} (hthr : e.thread ≠ main) (hfree : Unrecorded c
      e) :
    Attributed main (past ++ [e]) c := by
  obtain ⟨thread, call, now⟩ := e
  cases call with
  | «open» pathname ret context => exact h.open hfree thread now context
  | read | write =>
    intro fd info hget
    exact h.keep hget rfl (by simp [ThreadCall.counted, hthr])
  | close =>
    intro fd info hget
    exact h.keep hget rfl rfl

/-- **`OnRead`** and **`OnWrite`** count an operation of the main thread. -/
theorem Attributed.onReadWrite {e : ThreadCall} {fd ret cost : ℤ} {size : ℕ} (opType : FileOpType)
    (hop : ∀ fd', e.call.opens fd' = none)
    (hcntd : ∀ fd', e.counted main fd' =
      if fd = fd' ∧ ret ≠ -1 ∧ 0 ≤ cost then some size else none) :
    Attributed main (past ++ [e]) (c.onReadWrite opType fd size ret cost e.now) := by
  by_cases hfail : ret = -1 ∨ cost < 0
  · intro fd' info hget
    rw [IOInfoCollector.onReadWrite, if_pos hfail] at hget
    refine h.keep hget (hop fd') ?_
    rw [hcntd, if_neg]
    omega
  intro fd' info hget
  rw [IOInfoCollector.onReadWrite, if_neg hfail] at hget
  by_cases hfd : fd = fd'
  · subst hfd
    cases hent : c.infoMap[fd]? with
    | none =>
      simp only [hent] at hget
      exact absurd hget nofun
    | some old =>
      obtain ⟨path, calls, hlast, hcnts⟩ := h fd old hent
      simp only [hent, OrdMap.get_insert_self] at hget
      cases hget
      refine ⟨path, calls ++ [e], ?_, ?_⟩
      · rw [lastOpen_snoc, noteOpen, hop, hlast]
        rfl
      · have hsize : e.counted main fd = some size := by
          rw [hcntd, if_pos]
          omega
        rw [operations_snoc, hsize]
        exact hcnts.countRWInfo ..
  · have hold : c.infoMap[fd']? = some info := by
      cases hent : c.infoMap[fd]? with
      | none => simpa only [hent] using hget
      | some old =>
        simpa only [hent, OrdMap.get_insert_of_ne _ _ (Ne.symm hfd)] using hget
    refine h.keep hold (hop fd') ?_
    rw [hcntd, if_neg fun hall => hfd hall.1]

/-- **`OnClose`** erases an entry. -/
theorem Attributed.onClose (thread fd ret fileSize now : ℤ) :
    Attributed main (past ++ [⟨thread, .close fd ret fileSize, now⟩])
      (c.onClose fd fileSize now).1 := by
  intro fd' info hget
  refine h.keep ?_ rfl rfl
  cases hent : c.infoMap[fd]? with
  | none => simpa only [IOInfoCollector.onClose, hent] using hget
  | some old =>
    simp only [IOInfoCollector.onClose, hent, OrdMap.get_erase] at hget
    split_ifs at hget
    exact hget

/-- **One call** keeps the entries those of the latest `open`. -/
theorem Attributed.step {e : ThreadCall} (hfree : Unrecorded c e) :
    Attributed main (past ++ [e]) (step main c e) := by
  by_cases hthr : e.thread = main
  swap
  · rw [IoCanary.step, proxy, if_pos hthr]
    exact h.otherThread hthr hfree
  obtain ⟨thread, call, now⟩ := e
  subst hthr
  rw [IoCanary.step, proxy, if_neg (not_not_intro rfl)]
  cases call with
  | «open» pathname ret context =>
    cases context with
    | none => exact h.open hfree thread now none
    | some context =>
      by_cases hret : ret = -1
      · simp only [hret, ne_eq, not_true_eq_false, if_false]
        exact hret ▸ h.open hfree thread now (some context)
      · simp only [ne_eq, hret, not_false_eq_true, if_true]
        exact h.onOpen hret hfree thread
  | read fd size ret cost =>
    exact h.onReadWrite .read (fun _ => rfl) fun fd' => by simp [ThreadCall.counted]
  | write fd size ret cost =>
    exact h.onReadWrite .write (fun _ => rfl) fun fd' => by simp [ThreadCall.counted]
  | close fd ret fileSize => exact h.onClose thread fd ret fileSize now

end

end Attributed

/-- **Attribution**: in every run in which no `open` returns a descriptor that still has an entry,
what a `close` delivers has the path of the latest `open` that returned the descriptor, and counts
the operations of the main thread on the descriptor since then. -/
theorem delivered_attributed (main : ℤ) (es : List ThreadCall)
    (hmeets : Meets (step main) Unrecorded init es) (thread fd ret fileSize now : ℤ) (info : IOInfo)
    (hclose : (proxy main (run (step main) init es) ⟨thread, .close fd ret fileSize, now⟩).2 =
      some info) :
    ∃ path calls, lastOpen fd es = some (path, calls) ∧ info.path = path ∧
      info.opCnt = wrap32 (operations main fd calls).length ∧
      info.opSize = wrap64 (operations main fd calls).sum := by
  have hattr : Attributed main es (run (step main) init es) :=
    run_of_invariant (fun past c e (h : Attributed main past c) he => h.step he) attributed_init hmeets
  by_cases hthr : thread = main
  swap
  · simp [proxy, hthr] at hclose
  simp only [proxy, hthr, ne_eq, not_true_eq_false, if_false, IOInfoCollector.onClose] at hclose
  cases hent : (run (step main) init es).infoMap[fd]? with
  | none =>
    simp only [hent] at hclose
    cases hclose
  | some old =>
    simp only [hent, Option.some.injEq] at hclose
    subst hclose
    obtain ⟨path, calls, hlast, hcnts⟩ := hattr fd old hent
    exact ⟨path, calls, hlast, hcnts.path_eq, hcnts.opCnt_eq, hcnts.opSize_eq⟩

/-- The main thread reads a file while another thread uses the descriptor of a second one. -/
def twoFiles : List ThreadCall :=
  [⟨1, .open "a" 5 (some ⟨1, "main", ""⟩), 10⟩, ⟨2, .open "b" 6 none, 20⟩,
    ⟨1, .read 5 100 64 3, 30⟩, ⟨2, .read 6 4096 4096 3, 40⟩, ⟨2, .close 6 0 0, 50⟩,
    ⟨1, .open "c" 6 (some ⟨1, "main", ""⟩), 60⟩, ⟨1, .write 5 28 28 4, 70⟩, ⟨1, .read 5 9 (-1) 3, 80⟩]

theorem delivered_attributed_twoFiles :
    ∃ info path calls, (proxy 1 (run (step 1) init twoFiles) ⟨1, .close 5 0 4096, 90⟩).2 = some info ∧
      lastOpen 5 twoFiles = some (path, calls) ∧ info.path = path ∧
      info.opCnt = wrap32 (operations 1 5 calls).length ∧
      info.opSize = wrap64 (operations 1 5 calls).sum := by
  obtain ⟨info, hinfo⟩ : ∃ info,
      (proxy 1 (run (step 1) init twoFiles) ⟨1, .close 5 0 4096, 90⟩).2 = some info :=
    Option.isSome_iff_exists.mp (by decide +kernel)
  obtain ⟨path, calls, h⟩ := delivered_attributed 1 twoFiles (by decide +kernel) 1 5 0 4096 90 info hinfo
  exact ⟨info, path, calls, hinfo, h⟩

/-- A descriptor of the main thread that another thread closes, and that the main thread then gets
for a second file. -/
def reusedDescriptor : List ThreadCall :=
  [⟨1, .open "a" 5 (some ⟨1, "main", ""⟩), 10⟩, ⟨1, .read 5 100 64 3, 20⟩, ⟨2, .close 5 0 0, 30⟩,
    ⟨1, .open "b" 5 (some ⟨1, "main", ""⟩), 40⟩]

/-- The first file is delivered, with the operation on it, when the second one is closed. -/
theorem delivered_for_reused_descriptor :
    OpensClosed reusedDescriptor ∧
      lastOpen 5 reusedDescriptor = some ("b", []) ∧
      (proxy 1 (run (step 1) init reusedDescriptor) ⟨1, .close 5 0 0, 50⟩).2.map
        (fun info => (info.path, info.opCnt, info.opSize)) = some ("a", 1, 100) := by
  refine ⟨?_, ?_, ?_⟩ <;> decide +kernel

/-! ## Statistics of a descriptor -/

section Statistics

open List

/-- A read or write that took `cost` and ended at the time `now`. -/
structure Transfer where
  opType : FileOpType
  size : ℕ
  ret : ℤ
  cost : ℕ
  now : ℤ

/-- The completion times differ by less than `kContinualThreshold`. -/
def Transfer.near (a b : Transfer) : Bool := b.now - a.now < continualThreshold

def sumCost (es : List Transfer) : ℕ := (es.map (·.cost)).sum

def sumSize (es : List Transfer) : ℕ := (es.map (·.size)).sum

def greatest (l : List ℕ) : ℕ := l.foldr max 0

/-- What an entry should say of its operations; `splitBy` gives the maximal runs. -/
structure IOInfo.Summarizes (info : IOInfo) (es : List Transfer) : Prop where
  opCnt_eq : info.opCnt = es.length
  opSize_eq : info.opSize = sumSize es
  rwCost_eq : info.rwCost = sumCost es
  maxOnce_eq : info.maxOnceRwCostTime = greatest (es.map (·.cost))
  bufferSize_eq : info.bufferSize = greatest (es.map (·.size))
  maxContinual_eq : info.maxContinualRwCostTime =
    greatest ((es.splitBy Transfer.near).map sumCost)

/-- The collector after operations on a descriptor. -/
def IOInfoCollector.transfers (c : IOInfoCollector) (fd : ℤ) (es : List Transfer) :
    IOInfoCollector :=
  es.foldl (fun c e => c.onReadWrite e.opType fd e.size e.ret e.cost e.now) c

/-- The operations that are counted. -/
def succeeded (es : List Transfer) : List Transfer := es.filter (·.ret ≠ -1)

/-- Counts and sums stay in the range of `int` and `int64_t`. -/
def InRange (es : List Transfer) : Prop :=
  es.length < 2 ^ 31 ∧ sumSize es < 2 ^ 63 ∧ sumCost es < 2 ^ 63

def IOInfo.count (info : IOInfo) (e : Transfer) : IOInfo :=
  info.countRWInfo e.opType (wrap64 e.size) e.cost e.now

attribute [local simp] IOInfo.count IOInfo.countRWInfo

variable {info : IOInfo} {c : IOInfoCollector} {fd : ℤ}

theorem get_transfers (es : List Transfer) (h : c.infoMap[fd]? = some info) :
    (c.transfers fd es).infoMap[fd]? = some ((succeeded es).foldl IOInfo.count info) := by
  induction es generalizing c info with
  | nil => exact h
  | cons e es ih =>
    have hcost : ¬ (e.cost : ℤ) < 0 := by omega
    rw [succeeded, filter_cons]
    by_cases hret : e.ret = -1
    · rw [if_neg (by simp [hret])]
      exact ih (by simpa [IOInfoCollector.onReadWrite, hret] using h)
    · rw [if_pos (by simp [hret])]
      exact ih (by simp [IOInfoCollector.onReadWrite, hret, hcost, h])

theorem wrap64_natCast {n : ℕ} (h : n < 2 ^ 63) : wrap64 n = n :=
  Int.bmod_eq_of_le (by omega) (by omega)

theorem count_sums (es : List Transfer) {n size cost : ℕ} (hcnt : info.opCnt = wrap32 n)
    (hsize : info.opSize = wrap64 size) (hcost : info.rwCost = wrap64 cost) :
    (es.foldl IOInfo.count info).opCnt = wrap32 (n + es.length : ℕ) ∧
      (es.foldl IOInfo.count info).opSize = wrap64 (size + sumSize es : ℕ) ∧
      (es.foldl IOInfo.count info).rwCost = wrap64 (cost + sumCost es : ℕ) := by
  induction es generalizing info n size cost with
  | nil => exact ⟨hcnt, hsize, hcost⟩
  | cons e es ih =>
    have hnext := @ih (info.count e) (n + 1) (size + e.size) (cost + e.cost)
      (by simp [hcnt, wrap32])
      (by simp [hsize, wrap64])
      (by simp [hcost, wrap64])
    simpa [sumSize, sumCost, Nat.add_assoc, Nat.add_comm 1] using hnext

theorem count_maxima (es : List Transfer) (hsiz : sumSize es < 2 ^ 63) {cost size : ℕ}
    (hcost : info.maxOnceRwCostTime = cost) (hsize : info.bufferSize = size) :
    (es.foldl IOInfo.count info).maxOnceRwCostTime = max cost (greatest (es.map (·.cost))) ∧
      (es.foldl IOInfo.count info).bufferSize = max size (greatest (es.map (·.size))) := by
  induction es generalizing info cost size with
  | nil => exact ⟨by simp [greatest, hcost], by simp [greatest, hsize]⟩
  | cons e es ih =>
    have hle : e.size + sumSize es < 2 ^ 63 := hsiz
    have hnext := @ih (info.count e) (by omega) (max cost e.cost) (max size e.size)
      (by simp [hcost])
      (by simp [hsize, wrap64_natCast (show e.size < 2 ^ 63 by omega)])
    simpa [greatest, max_assoc] using hnext

theorem sumCost_reverse (es : List Transfer) : sumCost es.reverse = sumCost es :=
  (es.reverse_perm.map _).sum_eq

/-- The run of `e` and the operations `run` before it, after the runs `runs`. -/
theorem count_continual (es : List Transfer) {e : Transfer} {run : List Transfer}
    {runs : List (List Transfer)} (htim : ∀ e' ∈ e :: es, 0 < e'.now ∧ e'.now < 2 ^ 63)
    (hlast : info.lastRwTime = e.now) (hcosts : sumCost (e :: run) + sumCost es < 2 ^ 63)
    (hcurr : info.currentContinualRwTime = sumCost (e :: run))
    (hmax : info.maxContinualRwCostTime = greatest (((e :: run) :: runs).map sumCost)) :
    (es.foldl IOInfo.count info).maxContinualRwCostTime =
      greatest ((splitBy.loop Transfer.near es e run runs).map sumCost) := by
  induction es generalizing info e run runs with
  | nil =>
    have hgt := (((e :: run).reverse :: runs).map sumCost).reverse_perm.foldr_eq 0 (f := max)
    rw [splitBy.loop, map_reverse, greatest, hgt, map_cons, sumCost_reverse]
    exact hmax
  | cons e' es ih =>
    obtain ⟨he, he'⟩ := htim e mem_cons_self
    obtain ⟨hnow, hnow'⟩ := htim e' (mem_cons_of_mem _ mem_cons_self)
    have hdiff : wrap64 (e'.now - e.now) = e'.now - e.now :=
      Int.bmod_eq_of_le (by omega) (by omega)
    have hsplit : sumCost (e' :: es) = e'.cost + sumCost es := rfl
    have hrun : sumCost (e' :: e :: run) = e'.cost + sumCost (e :: run) := rfl
    have hone : sumCost [e'] = e'.cost := by simp [sumCost]
    have hnext : (info.count e').maxContinualRwCostTime =
      max info.maxContinualRwCostTime (info.count e').currentContinualRwTime := rfl
    have hcur : (info.count e').currentContinualRwTime =
        if e.near e' then sumCost (e' :: e :: run) else sumCost [e'] := by
      have hwrap := wrap64_natCast (n := sumCost (e :: run) + e'.cost) (by omega)
      simp only [IOInfo.count, IOInfo.countRWInfo, hlast, hdiff, hcurr, Transfer.near,
        decide_eq_true_eq, he, true_and, hone, hrun]
      split_ifs
      · rw [Nat.add_comm, ← hwrap, Nat.cast_add]
      · rfl
    rw [splitBy.loop]
    cases hnear : e.near e' with
    | true =>
      rw [hnear, if_pos rfl] at hcur
      refine ih (fun x hx => htim x (mem_cons_of_mem e hx)) rfl (by omega) hcur ?_
      rw [hnext, hmax]
      simp only [greatest, map_cons, foldr_cons, hrun, Nat.cast_max]
      omega
    | false =>
      rw [hnear, if_neg Bool.false_ne_true] at hcur
      refine ih (fun x hx => htim x (mem_cons_of_mem e hx)) rfl (by omega) hcur ?_
      rw [hnext, hcur, hmax, max_comm]
      simp only [greatest, map_cons, foldr_cons, sumCost_reverse, Nat.cast_max]

/-- **Statistics of a descriptor**: what `OnClose` delivers for a descriptor says what it should
exactly as long as no count or sum leaves its range. -/
theorem summarizes_iff_inRange (c : IOInfoCollector) (fd : ℤ) (path : String) (context : JavaContext)
    (start : ℤ) (es : List Transfer) (fileSize stop : ℤ) (hfd : fd ≠ -1)
    (hfree : c.infoMap[fd]? = none) (htimes : ∀ e ∈ es, 0 < e.now ∧ e.now < 2 ^ 63) :
    (∃ info, (((c.onOpen path fd context start).transfers fd es).onClose fd fileSize stop).2 =
      some info ∧ info.Summarizes (succeeded es)) ↔ InRange (succeeded es) := by
  have hget := get_transfers es (c := c.onOpen path fd context start)
    (by rw [infoMap_onOpen hfd hfree, OrdMap.get_insert_self])
  obtain ⟨hcnt, hsize, hcost⟩ := @count_sums
    { path, javaContext := context, startTime := start } (succeeded es) 0 0 0 rfl rfl rfl
  simp only [Nat.zero_add] at hcnt hsize hcost
  simp only [IOInfoCollector.onClose, hget, Option.some.injEq, exists_eq_left']
  constructor
  · intro h
    have hlt := Int.bmod_lt (x := (succeeded es).length) (m := 2 ^ 32) (by decide)
    have hlt' := Int.bmod_lt (x := sumSize (succeeded es)) (m := 2 ^ 64) (by decide)
    have hlt'' := Int.bmod_lt (x := sumCost (succeeded es)) (m := 2 ^ 64) (by decide)
    have hcnt' : wrap32 _ = _ := hcnt.symm.trans h.opCnt_eq
    have hsize' : wrap64 _ = _ := hsize.symm.trans h.opSize_eq
    have hcost' : wrap64 _ = _ := hcost.symm.trans h.rwCost_eq
    rw [wrap32] at hcnt'
    rw [wrap64] at hsize' hcost'
    refine ⟨?_, ?_, ?_⟩ <;> omega
  · rintro ⟨hlen, hsiz, hcosts⟩
    obtain ⟨honce, hbuf⟩ := @count_maxima
      { path, javaContext := context, startTime := start } (succeeded es) hsiz 0 0 rfl rfl
    refine ⟨?_, hsize.trans (wrap64_natCast hsiz), hcost.trans (wrap64_natCast hcosts), ?_, ?_, ?_⟩
    · exact hcnt.trans (Int.bmod_eq_of_le (by omega) (by omega))
    · rw [honce, Nat.zero_max]
    · rw [hbuf, Nat.zero_max]
    · cases hes : succeeded es with
      | nil => rfl
      | cons e rest =>
        rw [hes] at hcosts
        have htim' : ∀ e' ∈ e :: rest, _ := fun e' he' => htimes e' (mem_of_mem_filter (hes ▸ he'))
        exact count_continual rest htim' rfl hcosts
          (by simp [sumCost])
          (by simp [sumCost, greatest])

theorem summarizes_iff_inRange_pair :
    ∃ info, (((init.onOpen "a" 3 ⟨1, "main", ""⟩ 1).transfers 3
      [⟨.read, 64, 64, 5, 10⟩, ⟨.write, 9, 9, 7, 20⟩]).onClose 3 0 30).2 = some info ∧
        info.Summarizes [⟨.read, 64, 64, 5, 10⟩, ⟨.write, 9, 9, 7, 20⟩] :=
  (summarizes_iff_inRange init 3 "a" ⟨1, "main", ""⟩ 1 [⟨.read, 64, 64, 5, 10⟩, ⟨.write, 9, 9, 7, 20⟩]
    0 30 (by decide) (by decide) (by simp)).mpr (by simp [InRange, succeeded, sumSize, sumCost])

theorem opCnt_reads (n : ℕ) :
    (((init.onOpen "a" 3 ⟨1, "main", ""⟩ 1).transfers 3
      (replicate n ⟨.read, 1, 1, 0, 1⟩)).onClose 3 0 2).2.map (·.opCnt) = some (wrap32 n) := by
  have hget := @get_transfers _ (init.onOpen "a" 3 ⟨1, "main", ""⟩ 1) 3
    (replicate n ⟨.read, 1, 1, 0, 1⟩)
    (by rw [infoMap_onOpen (by decide) (by decide), OrdMap.get_insert_self])
  rw [succeeded, filter_replicate, if_pos (by decide)] at hget
  obtain ⟨hcnt, -⟩ := @count_sums { path := "a", javaContext := ⟨1, "main", ""⟩, startTime := 1 }
    (replicate n ⟨.read, 1, 1, 0, 1⟩) 0 0 0 rfl rfl rfl
  simp [IOInfoCollector.onClose, hget, hcnt]

/-- The count of `2 ^ 31` reads is negative. -/
theorem opCnt_of_many_reads :
    (((init.onOpen "a" 3 ⟨1, "main", ""⟩ 1).transfers 3
      (replicate (2 ^ 31) ⟨.read, 1, 1, 0, 1⟩)).onClose 3 0 2).2.map (·.opCnt) = some (-2 ^ 31) :=
  (opCnt_reads (2 ^ 31)).trans (congrArg some (show wrap32 (2 ^ 31) = -2 ^ 31 by decide))

end Statistics

end TraceHarbor.IoCanary
