import LoomDB.Foundations.Bytes
import LoomDB.Foundations.Lines
import LoomDB.Foundations.RateWindow
import LoomDB.Core.Value
import Mathlib.Data.Rat.Cast.Order

/-!
# Admission

What a client may make the server do before a request reaches the engine. One line is read within
a limit on its length, however the input arrives, and calls are admitted by a bucket of tokens.
-/

namespace LoomDB

namespace Mcp

structure AdmissionConfig where
  /-- Bytes of a line, without its newline. -/
  maxRequestBytes : ℕ
  requestsPerSecond : U32
  burst : U32

def AdmissionConfig.default : AdmissionConfig :=
  { maxRequestBytes := 1024 * 1024, requestsPerSecond := 100, burst := 200 }

/-! ## One line within a limit -/

/-- `\n`. -/
def newline : Byte := 10

/-- `\r`. -/
def carriageReturn : Byte := 13

inductive BoundedLine where
  /-- Clean end of input. -/
  | eof
  | line (bytes : Bytes)
  /-- The whole of the line was drained. -/
  | tooLarge
  deriving DecidableEq

/-- What a filled buffer shows. -/
structure Chunk where
  bytes : Bytes
  nonempty : bytes ≠ []

/-- What is still to be read: what `fill_buf` gives one time after another, which at the end of
the input is nothing. -/
abbrev BufReader (ε : Type) := List (Except ε Chunk)

namespace BufReader

/-- A stream that arrives in these chunks. -/
def ofChunks {ε : Type} (chunks : List Chunk) : BufReader ε :=
  chunks.map .ok

/-- `consume`, where these bytes of the buffer are left. -/
def consume {ε : Type} (left : Bytes) (rest : BufReader ε) : BufReader ε :=
  if hleft : left = [] then rest else .ok { bytes := left, nonempty := hleft } :: rest

end BufReader

structure LineState where
  line : Bytes
  oversized : Bool
  sawInput : Bool

def LineState.new : LineState :=
  { line := [], oversized := false, sawInput := false }

/-- Keep what fits of a piece of the line. -/
def LineState.extend (maxBytes : ℕ) (state : LineState) (payload : Bytes) : LineState :=
  if state.oversized then { state with sawInput := true }
  else
    let remaining := maxBytes - state.line.length
    if payload.length > remaining then
      { line := state.line ++ payload.take remaining, oversized := true, sawInput := true }
    else { state with line := state.line ++ payload, sawInput := true }

/-- The loop: it stops behind a newline, at the end of the input, or where filling fails. With its
outcome it gives the line as it stood at the end of every turn. -/
def loopTurns {ε : Type} (maxBytes : ℕ) :
    LineState → BufReader ε → List LineState × Except ε LineState × BufReader ε
  | state, [] => ([], .ok state, [])
  | _, .error error :: rest => ([], .error error, rest)
  | state, .ok available :: rest =>
      match available.bytes.idxOf? newline with
      | some index =>
          let state := state.extend maxBytes (available.bytes.take index)
          ([state], .ok state, BufReader.consume (available.bytes.drop (index + 1)) rest)
      | none =>
          let state := state.extend maxBytes available.bytes
          let (later, ended) := loopTurns maxBytes state rest
          (state :: later, ended)

/-- What the loop ends with. -/
def readLoop {ε : Type} (maxBytes : ℕ) (state : LineState) (reader : BufReader ε) :
    Except ε LineState × BufReader ε :=
  (loopTurns maxBytes state reader).2

def popReturn (line : Bytes) : Bytes :=
  if line.getLast? = some carriageReturn then line.dropLast else line

def LineState.finish (state : LineState) : BoundedLine :=
  if !state.sawInput then .eof
  else if state.oversized then .tooLarge
  else .line (popReturn state.line)

def readBoundedLine {ε : Type} (reader : BufReader ε) (maxBytes : ℕ) :
    Except ε BoundedLine × BufReader ε :=
  let (outcome, left) := readLoop maxBytes .new reader
  (outcome.map LineState.finish, left)

/-- One call after another. -/
def readCalls {ε : Type} (maxBytes : ℕ) :
    ℕ → BufReader ε → List (Except ε BoundedLine) × BufReader ε
  | 0, reader => ([], reader)
  | count + 1, reader =>
      let (result, left) := readBoundedLine reader maxBytes
      let (results, left) := readCalls maxBytes count left
      (result :: results, left)

/-! ## A bucket of tokens -/

/-- Instants are in seconds. -/
structure AdmissionController where
  config : AdmissionConfig
  tokens : ℚ
  lastRefill : ℚ

namespace AdmissionController

/-- A full bucket. -/
def new (config : AdmissionConfig) (now : ℚ) : AdmissionController :=
  { config := config, tokens := config.burst.val, lastRefill := now }

/-- `duration_since` is zero where the clock stepped back. -/
def refilled (controller : AdmissionController) (now : ℚ) : ℚ :=
  min
    (controller.tokens +
      max 0 (now - controller.lastRefill) * controller.config.requestsPerSecond.val)
    controller.config.burst.val

def admitRequest (now : ℚ) (controller : AdmissionController) : Bool × AdmissionController :=
  let tokens := controller.refilled now
  if tokens < 1 then (false, { controller with tokens := tokens, lastRefill := now })
  else (true, { controller with tokens := tokens - 1, lastRefill := now })

end AdmissionController

/-! ## Lines do not depend on the chunks -/

section Lines

open Segments (pieces first rest)

variable {maxBytes : ℕ}

/-- The bytes of some chunks. -/
def stream (chunks : List Chunk) : Bytes :=
  (chunks.map Chunk.bytes).flatten

/-- What a line is read as. -/
def report (maxBytes : ℕ) (line : Bytes) : BoundedLine :=
  if maxBytes < line.length then .tooLarge else .line (popReturn line)

namespace LineState

/-- The state behind the first bytes of a line. -/
def behind (maxBytes : ℕ) (seen : Bytes) (sawInput : Bool) : LineState :=
  { line := seen.take maxBytes
    oversized := maxBytes < seen.length
    sawInput := sawInput }

theorem new_eq_behind (maxBytes : ℕ) : new = behind maxBytes [] false := by
  simp [new, behind]

theorem extend_behind (seen payload : Bytes) (sawInput : Bool) :
    (behind maxBytes seen sawInput).extend maxBytes payload =
      behind maxBytes (seen ++ payload) true := by
  by_cases hover : maxBytes < seen.length
  · have hlonger : maxBytes < (seen ++ payload).length := by
      rw [List.length_append]
      omega
    simp only [extend, behind, hover, hlonger, decide_true, if_true]
    rw [List.take_append_of_le_length hover.le]
  · have htake : seen.take maxBytes = seen := List.take_of_length_le (not_lt.mp hover)
    simp only [extend, behind, hover, decide_false, htake]
    by_cases hmore : payload.length > maxBytes - seen.length
    · have hlonger : maxBytes < (seen ++ payload).length := by
        rw [List.length_append]
        omega
      simp only [hmore, hlonger, if_true, decide_true]
      rw [List.take_append, htake]
      simp
    · have hshort : ¬maxBytes < (seen ++ payload).length := by
        rw [List.length_append]
        omega
      simp only [hmore, hshort, if_false, decide_false]
      rw [List.take_of_length_le (not_lt.mp hshort)]
      simp

theorem finish_behind (seen : Bytes) :
    (behind maxBytes seen true).finish = report maxBytes seen := by
  by_cases hover : maxBytes < seen.length
  · simp [finish, behind, report, hover]
  · simp [finish, behind, report, hover, List.take_of_length_le (not_lt.mp hover)]

end LineState

variable (ε : Type)

theorem exists_consume_ofChunks (left : Bytes) (chunks : List Chunk) :
    ∃ chunks', BufReader.consume left (BufReader.ofChunks chunks) =
        (BufReader.ofChunks chunks' : BufReader ε) ∧
      stream chunks' = left ++ stream chunks := by
  by_cases hleft : left = []
  · exact ⟨chunks, by rw [BufReader.consume, dif_pos hleft], by rw [hleft]; rfl⟩
  · exact ⟨{ bytes := left, nonempty := hleft } :: chunks,
      by rw [BufReader.consume, dif_neg hleft]; rfl, rfl⟩

/-- The loop stops behind the first newline, wherever the chunks end. -/
theorem readLoop_ofChunks (maxBytes : ℕ) (chunks : List Chunk) (seen : Bytes) (sawInput : Bool) :
    ∃ chunks', readLoop maxBytes (.behind maxBytes seen sawInput) (BufReader.ofChunks chunks) =
        ((.ok (.behind maxBytes (seen ++ first newline (stream chunks))
          (sawInput || stream chunks ≠ [])) : Except ε LineState),
          BufReader.ofChunks chunks') ∧
      stream chunks' = rest newline (stream chunks) := by
  induction chunks generalizing seen sawInput with
  | nil => exact ⟨[], by simp [BufReader.ofChunks, readLoop, loopTurns, stream], rfl⟩
  | cons available chunks ih =>
      have hstream : stream (available :: chunks) = available.bytes ++ stream chunks := rfl
      have hsaw : (sawInput || Decidable.decide (stream (available :: chunks) ≠ [])) = true := by
        simp [hstream, available.nonempty]
      rw [hsaw, hstream]
      cases hindex : available.bytes.idxOf? newline with
      | some index =>
          obtain ⟨hcut, hbefore⟩ := Segments.cut_of_idxOf? hindex
          obtain ⟨chunks', hconsume, hleft⟩ := exists_consume_ofChunks ε
            (available.bytes.drop (index + 1)) chunks
          refine ⟨chunks', ?_, ?_⟩
          · rw [BufReader.ofChunks, List.map_cons, readLoop, loopTurns, hindex]
            simp only [LineState.extend_behind]
            rw [hcut, List.append_assoc, List.cons_append,
              Segments.first_append_separator hbefore, ← hconsume, ← hcut]
            rfl
          · rw [hleft]
            conv_rhs => rw [hcut, List.append_assoc, List.cons_append]
            rw [Segments.rest_append_separator hbefore]
      | none =>
          have hnone : newline ∉ available.bytes := List.idxOf?_eq_none_iff.mp hindex
          obtain ⟨chunks', hloop, hleft⟩ := ih (seen ++ available.bytes) true
          refine ⟨chunks', ?_, ?_⟩
          · rw [BufReader.ofChunks, List.map_cons, readLoop, loopTurns, hindex]
            simp only [LineState.extend_behind]
            rw [Segments.first_append_of_notMem hnone, ← List.append_assoc]
            simpa [BufReader.ofChunks, readLoop] using hloop
          · rw [hleft, Segments.rest_append_of_notMem hnone]

theorem readBoundedLine_ofChunks (maxBytes : ℕ) (chunks : List Chunk) :
    ∃ chunks', readBoundedLine (BufReader.ofChunks chunks) maxBytes =
        ((.ok (if stream chunks = [] then .eof else report maxBytes (first newline (stream chunks))) :
          Except ε BoundedLine), BufReader.ofChunks chunks') ∧
      stream chunks' = rest newline (stream chunks) := by
  obtain ⟨chunks', hloop, hleft⟩ := readLoop_ofChunks ε maxBytes chunks [] false
  refine ⟨chunks', ?_, hleft⟩
  rw [readBoundedLine, LineState.new_eq_behind maxBytes, hloop]
  by_cases hempty : stream chunks = []
  · simp [hempty, LineState.behind, LineState.finish, Except.map]
  · simp only [hempty, if_false, ne_eq, not_false_eq_true, decide_true, Bool.or_true, List.nil_append,
      Except.map, LineState.finish_behind]

variable {ε}

theorem LineState.length_extend_le {state : LineState} (hstate : state.line.length ≤ maxBytes)
    (payload : Bytes) : (state.extend maxBytes payload).line.length ≤ maxBytes := by
  unfold LineState.extend
  split
  · exact hstate
  · dsimp only
    split
    · rw [List.length_append, List.length_take]
      omega
    · rw [List.length_append]
      omega

/-- No turn leaves more than the limit. -/
theorem length_le_of_mem_loopTurns {start state : LineState} {reader : BufReader ε}
    (hmem : state ∈ (loopTurns maxBytes start reader).1) (hstart : start.line.length ≤ maxBytes) :
    state.line.length ≤ maxBytes := by
  induction reader generalizing start with
  | nil => cases hmem
  | cons filled rest ih =>
      cases filled with
      | error error => cases hmem
      | ok available =>
          unfold loopTurns at hmem
          split at hmem
          · rw [List.mem_singleton.mp hmem]
            exact LineState.length_extend_le hstart _
          · rcases List.mem_cons.mp hmem with rfl | hlater
            · exact LineState.length_extend_le hstart _
            · exact ih hlater (LineState.length_extend_le hstart _)

/-- Call after call gives the lines of the stream and then its end, starts behind as many newlines
as there were calls, and no turn of its loop leaves more of a line than the limit. -/
theorem readCalls_eq_pieces (ε : Type) (maxBytes count : ℕ) (chunks : List Chunk) :
    (∃ left : List Chunk, readCalls maxBytes count (BufReader.ofChunks chunks) =
        ((((pieces newline (stream chunks)).map (report maxBytes) ++
            List.replicate count BoundedLine.eof).take count).map (.ok : BoundedLine → Except ε BoundedLine),
          BufReader.ofChunks left) ∧
      stream left = (rest newline)^[count] (stream chunks)) ∧
    ∀ reader : BufReader ε, ∀ state ∈ .new :: (loopTurns maxBytes .new reader).1,
      state.line.length ≤ maxBytes := by
  refine ⟨?_, fun reader state hstate => ?_⟩
  swap
  · rcases List.mem_cons.mp hstate with rfl | hturn
    · exact Nat.zero_le _
    · exact length_le_of_mem_loopTurns hturn (Nat.zero_le _)
  induction count generalizing chunks with
  | zero => exact ⟨chunks, rfl, rfl⟩
  | succ count ih =>
      obtain ⟨next, hcall, hnext⟩ := readBoundedLine_ofChunks ε maxBytes chunks
      obtain ⟨left, hcalls, hleft⟩ := ih next
      refine ⟨left, ?_, by rw [hleft, hnext, Function.iterate_succ_apply]⟩
      simp only [readCalls, hcall, hcalls, hnext]
      by_cases hempty : stream chunks = []
      · simp [hempty, pieces, List.replicate_succ]
      · rw [Segments.pieces_eq_cons hempty]
        simp only [hempty, if_false, List.map_cons, List.cons_append, List.take_succ_cons,
          List.take_append, List.length_map, List.take_replicate]
        congr 5
        omega

/-- A line that is too long, one across two chunks, and one without an end. -/
example :
    (readCalls 4 4 (BufReader.ofChunks [⟨ascii "123456789\no", by decide⟩,
      ⟨ascii "k\r\nlast", by decide⟩] : BufReader Empty)).1.map Except.toOption =
      [some .tooLarge, some (.line (ascii "ok")), some (.line (ascii "last")), some .eof] := by
  decide

end Lines

/-! ## No window admits too many -/

namespace AdmissionController

/-- The balance of a bucket of this size. -/
structure Balanced (config : AdmissionConfig) (controller : AdmissionController) : Prop where
  config_eq : controller.config = config
  nonneg : 0 ≤ controller.tokens
  le_burst : controller.tokens ≤ config.burst.val

variable {config : AdmissionConfig}

theorem balanced_new (config : AdmissionConfig) (start : ℚ) : Balanced config (new config start) :=
  ⟨rfl, Nat.cast_nonneg _, le_refl _⟩

theorem refilled_nonneg {controller : AdmissionController} (hnonneg : 0 ≤ controller.tokens)
    (now : ℚ) : 0 ≤ controller.refilled now := by
  have haccrued : 0 ≤ max 0 (now - controller.lastRefill) *
      (controller.config.requestsPerSecond.val : ℚ) :=
    mul_nonneg (le_max_left _ _) (Nat.cast_nonneg _)
  exact le_min (add_nonneg hnonneg haccrued) (Nat.cast_nonneg _)

/-- An admission costs a token, and nothing else does. -/
theorem admit_cases (now : ℚ) (controller : AdmissionController) :
    (admitRequest now controller).2.config = controller.config ∧
      (admitRequest now controller).2.lastRefill = now ∧
      (admitRequest now controller).2.tokens + (if (admitRequest now controller).1 then 1 else 0) =
        controller.refilled now ∧
      ((admitRequest now controller).1 = true → 1 ≤ controller.refilled now) := by
  by_cases hshort : controller.refilled now < 1
  · simp [admitRequest, hshort]
  · simpa [admitRequest, hshort] using not_lt.mp hshort

theorem metered (config : AdmissionConfig) :
    RateWindow.Metered admitRequest (config.requestsPerSecond.val : ℚ) (config.burst.val : ℚ)
      tokens lastRefill (Balanced config) where
  rate_nonneg := Nat.cast_nonneg _
  nonneg _ hbalanced := hbalanced.nonneg
  clock_eq now controller := (admit_cases now controller).2.1
  keeps now controller hbalanced := by
    obtain ⟨hconfig, -, hpays, hgranted⟩ := admit_cases now controller
    have hrefilled := refilled_nonneg hbalanced.nonneg now
    have hcap : controller.refilled now ≤ config.burst.val := by
      rw [← hbalanced.config_eq]
      exact min_le_right _ _
    refine ⟨hconfig.trans hbalanced.config_eq, ?_, ?_⟩
    · by_cases hanswer : (admitRequest now controller).1 = true
      · have henough := hgranted hanswer
        rw [if_pos hanswer] at hpays
        linarith
      · rw [if_neg hanswer] at hpays
        linarith
    · by_cases hanswer : (admitRequest now controller).1 = true
      · rw [if_pos hanswer] at hpays
        linarith
      · rw [if_neg hanswer] at hpays
        linarith
  accrues now controller hbalanced hlater := by
    rw [(admit_cases now controller).2.2.1, ← hbalanced.config_eq]
    have helapsed : max 0 (now - controller.lastRefill) = now - controller.lastRefill :=
      max_eq_right (sub_nonneg.mpr hlater)
    refine (min_le_left _ _).trans ?_
    rw [helapsed, mul_comm]
  capped now controller hbalanced := by
    rw [(admit_cases now controller).2.2.1, ← hbalanced.config_eq]
    exact min_le_right _ _

/-- Calls at instants that do not step back: in no window are more of them admitted than the burst
and what the window refills, and the balance stays within the bucket. -/
theorem admitted_le_burst (config : AdmissionConfig) (start : ℚ) (instants : List ℚ)
    (hsorted : (start :: instants).Pairwise (· ≤ ·)) :
    (∀ opening length : ℚ, 0 ≤ length →
      (RateWindow.admitted opening (opening + length)
        (RateWindow.calls admitRequest (new config start) instants) : ℚ) ≤
        config.burst.val + config.requestsPerSecond.val * length) ∧
    ∀ made : List ℚ,
      0 ≤ (RateWindow.run admitRequest (new config start) made).tokens ∧
        (RateWindow.run admitRequest (new config start) made).tokens ≤ config.burst.val := by
  constructor
  · intro opening length hlength
    exact (metered config).admitted_le hsorted (balanced_new config start) (Nat.cast_nonneg _) hlength
  · intro made
    have hbalanced := (metered config).run_holds (balanced_new config start) made
    exact ⟨hbalanced.nonneg, hbalanced.le_burst⟩

theorem admitted_le_burst_default :
    (∀ opening length : ℚ, 0 ≤ length →
      (RateWindow.admitted opening (opening + length)
        (RateWindow.calls admitRequest (new .default 0) [0, 0, 1 / 2]) : ℚ) ≤
        AdmissionConfig.default.burst.val +
          AdmissionConfig.default.requestsPerSecond.val * length) ∧
    ∀ made : List ℚ,
      0 ≤ (RateWindow.run admitRequest (new .default 0) made).tokens ∧
        (RateWindow.run admitRequest (new .default 0) made).tokens ≤ AdmissionConfig.default.burst.val :=
  admitted_le_burst .default 0 [0, 0, 1 / 2] (by norm_num)

end AdmissionController

end Mcp

end LoomDB
