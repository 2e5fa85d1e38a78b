import IrcBot.Bytes
import IrcBot.Machine.Mutex

/-! The logger that all threads of the bot share. A call locks the mutex, collects its line
in one string stream and hands the line to every output. Under every schedule of the threads
an output holds whole lines only. -/
namespace IrcBot.Log
open Machine

inductive LogLevel
  | debug | info | warning | error | critical
  deriving DecidableEq, Repr

namespace LogLevel

/-- The value of the enumerator, by which levels are compared. -/
def value : LogLevel → ℕ
  | debug => 0
  | info => 1
  | warning => 2
  | error => 3
  | critical => 4

def logLevelDesc : LogLevel → Bytes
  | debug => text ['D', 'E', 'B', 'U', 'G']
  | info => text ['I', 'N', 'F', 'O']
  | warning => text ['W', 'A', 'R', 'N', 'I', 'N', 'G']
  | error => text ['E', 'R', 'R', 'O', 'R']
  | critical => text ['C', 'R', 'I', 'T', 'I', 'C', 'A', 'L']

end LogLevel

/-- A stream with the least level that it shows. -/
structure LogOutput where
  level : LogLevel
  written : Bytes := []
  deriving DecidableEq, Repr

def LogOutput.log (o : LogOutput) (level : LogLevel) (message : Bytes) : LogOutput :=
  if o.level.value ≤ level.value then { o with written := o.written ++ message } else o

/-- A call of the logger: the time as `strftime` writes it, the level and the arguments as
the stream writes them. -/
structure LogCall where
  time : Bytes
  level : LogLevel
  args : List Bytes
  deriving DecidableEq, Repr

/-- `m_outputs`, `m_stream`, and `log_msg` of the call that holds the mutex. -/
structure Logger where
  outputs : List LogOutput
  stream : Bytes := []
  logMsg : Bytes := []
  deriving DecidableEq, Repr

/-- The statements of a call. -/
inductive Statement
  | clear
  | put (s : Bytes)
  | read
  | output (level : LogLevel) (k : ℕ)
  deriving DecidableEq, Repr

namespace Logger

def exec (l : Logger) : Statement → Logger
  | .clear => { l with stream := [] }
  | .put s => { l with stream := l.stream ++ s }
  | .read => { l with logMsg := l.stream }
  | .output level k => { l with outputs := l.outputs.modify k fun o => o.log level l.logMsg }

/-- `log(args...)` -/
def log : List Bytes → List Statement
  | [] => [.put [Chr.lf]]
  | f :: r => .put f :: log r

/-- What a call does before it comes to the outputs. -/
def collect (c : LogCall) : List Statement :=
  [.clear, .put c.time, .put [Chr.space], .put c.level.logLevelDesc, .put [Chr.colon, Chr.space]]
    ++ log c.args ++ [.read]

/-- `operator()` between the lock and the unlock, for a logger with `n` outputs. -/
def statements (n : ℕ) (c : LogCall) : List Statement :=
  collect c ++ (List.range n).map (.output c.level)

/-- All threads of the program log at the same time. -/
def threads (n : ℕ) : Mealy (Mutex Logger LogCall Statement) ℕ (ℕ × LogCall) :=
  Mutex.machine exec (statements n)

/-- The line of a call. -/
def line (c : LogCall) : Bytes :=
  c.time ++ [Chr.space] ++ c.level.logLevelDesc ++ [Chr.colon, Chr.space] ++ c.args.flatten
    ++ [Chr.lf]

/-- The lines that an output of a level shows of some calls. -/
def lines (level : LogLevel) (calls : List (ℕ × LogCall)) : Bytes :=
  ((calls.map Prod.snd).filter fun c => level.value ≤ c.level.value).flatMap line

theorem lines_append (level : LogLevel) (calls calls' : List (ℕ × LogCall)) :
    lines level (calls ++ calls') = lines level calls ++ lines level calls' := by
  rw [lines, List.map_append, List.filter_append, List.flatMap_append]
  rfl

theorem lines_one (level : LogLevel) (i : ℕ) (c : LogCall) :
    lines level [(i, c)] = if level.value ≤ c.level.value then line c else [] := by
  by_cases h : level.value ≤ c.level.value <;> simp [lines, h]

theorem log_written (o : LogOutput) (i : ℕ) (c : LogCall) :
    o.log c.level (line c) = { o with written := o.written ++ lines o.level [(i, c)] } := by
  rw [lines_one]
  by_cases h : o.level.value ≤ c.level.value <;> simp [LogOutput.log, h]

/-- Before the loop over the outputs none of them changes. -/
theorem outputs_collect {c : LogCall} {ss : List Statement} (h : ∀ s ∈ ss, s ∈ collect c)
    (l : Logger) : (ss.foldl exec l).outputs = l.outputs := by
  have hno : ∀ args level k, Statement.output level k ∉ log args := by
    intro args level k
    induction args with
    | nil => simp [log]
    | cons f r ih => simp [log, ih]
  induction ss generalizing l with
  | nil => rfl
  | cons s ss ih =>
    rw [List.foldl_cons, ih fun s' hs' => h s' (List.mem_cons_of_mem s hs')]
    cases s with
    | output level k =>
      have hmem := h _ List.mem_cons_self
      simp [collect, hno] at hmem
    | clear => rfl
    | put s => rfl
    | read => rfl

theorem stream_log (args : List Bytes) (l : Logger) :
    (log args).foldl exec l = { l with stream := l.stream ++ args.flatten ++ [Chr.lf] } := by
  induction args generalizing l with
  | nil => simp [log, exec]
  | cons f r ih => simp [log, exec, ih]

/-- Whatever the stream has held before, the message is the line of the call. -/
theorem logMsg_collect (c : LogCall) (l : Logger) : ((collect c).foldl exec l).logMsg = line c := by
  simp [collect, stream_log, exec, line]

/-- The loop over the first outputs. -/
theorem foldl_output (level : LogLevel) (l : Logger) (j : ℕ) :
    (((List.range j).map (Statement.output level)).foldl exec l).logMsg = l.logMsg ∧
      ∀ k, (((List.range j).map (Statement.output level)).foldl exec l).outputs[k]? =
        l.outputs[k]?.map fun o => if k < j then o.log level l.logMsg else o := by
  induction j with
  | zero => simp
  | succ j ih =>
    obtain ⟨hmsg, houts⟩ := ih
    rw [List.range_succ, List.map_append, List.foldl_append, List.map_singleton, List.foldl_cons,
      List.foldl_nil]
    refine ⟨hmsg, fun k => ?_⟩
    rw [exec, List.getElem?_modify, houts k, hmsg]
    cases l.outputs[k]? with
    | none => rfl
    | some o =>
      rcases Nat.lt_trichotomy j k with hjk | rfl | hjk
      · simp [show j ≠ k by omega, show ¬ k < j by omega, show ¬ k < j + 1 by omega]
      · simp
      · simp [show j ≠ k by omega, hjk, show k < j + 1 by omega]

/-- In the middle of a call an output has got nothing of its line or all of it. -/
theorem outputs_part {n : ℕ} {c : LogCall} {done rest : List Statement}
    (h : statements n c = done ++ rest) (i : ℕ) (l : Logger) {k : ℕ} {o : LogOutput}
    (ho : l.outputs[k]? = some o) :
    (done.foldl exec l).outputs[k]? = some o ∨
      (done.foldl exec l).outputs[k]? =
        some { o with written := o.written ++ lines o.level [(i, c)] } := by
  have hdone : done = (statements n c).take done.length := by rw [h, List.take_left]
  rw [statements, List.take_append, ← List.map_take, List.take_range] at hdone
  by_cases hlen : done.length ≤ (collect c).length
  · rw [Nat.sub_eq_zero_of_le hlen, Nat.zero_min, List.range_zero, List.map_nil,
      List.append_nil] at hdone
    left
    rw [hdone, outputs_collect (c := c) (fun s hs => List.mem_of_mem_take hs), ho]
  · rw [List.take_of_length_le (by omega)] at hdone
    rw [hdone, List.foldl_append, (foldl_output _ _ _).2 k,
      outputs_collect (c := c) fun s hs => hs, ho, logMsg_collect, Option.map_some]
    by_cases hk : k < min (done.length - (collect c).length) n
    · rw [if_pos hk, log_written o i c]
      exact Or.inr rfl
    · rw [if_neg hk]
      exact Or.inl rfl

/-- A whole call writes its line to every output that shows its level. -/
theorem outputs_whole {n : ℕ} (i : ℕ) (c : LogCall) (l : Logger) {k : ℕ} {o : LogOutput}
    (hk : k < n) (ho : l.outputs[k]? = some o) :
    ((statements n c).foldl exec l).outputs[k]? =
      some { o with written := o.written ++ lines o.level [(i, c)] } := by
  rw [statements, List.foldl_append, (foldl_output _ _ _).2 k,
    outputs_collect (c := c) fun s hs => hs, ho, logMsg_collect, Option.map_some, if_pos hk,
    log_written o i c]

theorem outputs_execAll {n : ℕ} (calls : List (ℕ × LogCall)) (l : Logger) {k : ℕ} {o : LogOutput}
    (hk : k < n) (ho : l.outputs[k]? = some o) :
    (Mutex.execAll exec (statements n) l calls).outputs[k]? =
      some { o with written := o.written ++ lines o.level calls } := by
  induction calls generalizing l o with
  | nil => simpa [Mutex.execAll, lines] using ho
  | cons c calls ih =>
    obtain ⟨i, c⟩ := c
    have hc := outputs_whole i c l hk ho
    have hrest := ih _ hc
    rw [List.append_assoc, ← lines_append, List.singleton_append] at hrest
    exact hrest

/-- Under every schedule of any number of threads, every output holds the whole lines of the
calls that have taken the mutex and have its level, in that order; of the last call, as long
as it holds the mutex, it may still hold nothing. Each thread's calls stay in order and none
is lost. -/
theorem written_lines (l : Logger) (program : List (List LogCall)) (schedule : List ℕ) :
    let start : Mutex Logger LogCall Statement := { state := l, pending := program }
    let calls := (threads l.outputs.length).out start schedule
    let now := (threads l.outputs.length).run start schedule
    (∀ i, Mutex.callsOf calls i ++ now.pending.getD i [] = program.getD i []) ∧
      ∀ (k : ℕ) (o : LogOutput), l.outputs[k]? = some o →
        now.state.outputs[k]? = some { o with written := o.written ++ lines o.level calls } ∨
          now.holder ≠ none ∧ now.state.outputs[k]? =
            some { o with written := o.written ++ lines o.level calls.dropLast } := by
  dsimp only
  have hatomic := Mutex.atomic exec (statements l.outputs.length) l program schedule
  refine ⟨hatomic.threads, fun k o ho => ?_⟩
  have hk : k < l.outputs.length := (List.getElem?_eq_some_iff.mp ho).1
  rw [threads]
  cases hholder : ((Mutex.machine exec (statements l.outputs.length)).run
      { state := l, pending := program } schedule).holder with
  | none =>
    left
    rw [hatomic.free hholder]
    exact outputs_execAll _ l hk ho
  | some h =>
    obtain ⟨i, rest⟩ := h
    obtain ⟨earlier, c, done, hcalls, hsplit, hstate⟩ := hatomic.held i rest hholder
    rw [hstate, hcalls, List.dropLast_concat, lines_append, ← List.append_assoc]
    have hearlier := outputs_execAll (n := l.outputs.length) earlier l hk ho
    rcases outputs_part hsplit i _ hearlier with hpart | hpart
    · exact Or.inr ⟨by simp, hpart⟩
    · exact Or.inl hpart

end Logger
end IrcBot.Log
