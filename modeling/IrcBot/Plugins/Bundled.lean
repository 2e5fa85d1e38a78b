import IrcBot.Core.Dispatch
import IrcBot.Irc.Params
import IrcBot.Plugins.Clipboard

/-! The plugins that come with the bot, as far as they handle messages. Their filters run on
the io thread for every message, their `onMessage` for those that pass. -/
namespace IrcBot.Plugins
open Irc

/-- A plugin's own filter and handler. `σ` is what the handler reads and writes besides. -/
structure SoPlugin (σ : Type) where
  filter : IRCMessage → Except Fault Bool
  onMessage : σ → IRCMessage → Except Fault (σ × List IRCMessage)

/-- The filter does not read beyond the parameters, nor does the handler if the message passes. -/
structure SoPlugin.InRange {σ : Type} (p : SoPlugin σ) (m : IRCMessage) : Prop where
  filter : p.filter m ≠ .error .outOfRange
  onMessage : p.filter m = .ok true → ∀ s, p.onMessage s m ≠ .error .outOfRange

namespace Uptime

def filter (cmd : IRCMessage) : Except Fault Bool := do
  if cmd.command = Plugin.privmsg then
    let p ← param cmd 1
    return startsWith p (text ['!', 'u', 'p', 't', 'i', 'm', 'e'])
  return false

/-- Days, hours, minutes and seconds of a duration in nanoseconds, each as `uint32_t`. -/
def uptimeText (uptime : ℕ) : Bytes :=
  let count (uptime unit : ℕ) : ℕ := uptime / (unit * 10 ^ 9) % 2 ^ 32
  let rest (uptime unit : ℕ) : ℕ := uptime - count uptime unit * (unit * 10 ^ 9)
  let afterDays := rest uptime 86400
  let afterHours := rest afterDays 3600
  let afterMinutes := rest afterHours 60
  [0x03] ++ text "03,01[Uptime = ".toList ++ decimal (count uptime 86400) ++ text " days ".toList
    ++ decimal (count afterDays 3600) ++ text "h ".toList ++ decimal (count afterHours 60)
    ++ text "m ".toList ++ decimal (count afterMinutes 1) ++ text "s]".toList ++ [0x0f]

def onMessage (uptime : ℕ) (cmd : IRCMessage) : Except Fault (ℕ × List IRCMessage) := do
  let destination ← responseDestination cmd
  return (uptime, [privmsgTo destination (uptimeText uptime)])

def plugin : SoPlugin ℕ := ⟨filter, onMessage⟩

end Uptime

namespace Ping

def filter (cmd : IRCMessage) : Bool := cmd.command = text ['P', 'I', 'N', 'G']

def onMessage (cmd : IRCMessage) : Except Fault (List IRCMessage) := do
  let last ← lastParam cmd
  return [{ command := text ['P', 'O', 'N', 'G'], params := [last] }]

def plugin : SoPlugin Unit where
  filter cmd := .ok (filter cmd)
  onMessage _ cmd := do
    let out ← onMessage cmd
    return ((), out)

end Ping

namespace HelloWorld

/-- `"!hello error"` -/
def helloError : Bytes := text ['!', 'h', 'e', 'l', 'l', 'o', ' ', 'e', 'r', 'r', 'o', 'r']

def filter (cmd : IRCMessage) : Bool := cmd.command = Plugin.privmsg

/-- `message` is the one in the configuration. -/
def onMessage (message : Option Bytes) (cmd : IRCMessage) :
    Except Fault (Option Bytes × List IRCMessage) := do
  let p ← param cmd 1
  if p = helloError then throw .exception
  return (message, [privmsgTo cmd.nick (message.getD (text "HelloWorld plugin".toList))])

def plugin : SoPlugin (Option Bytes) where
  filter cmd := .ok (filter cmd)
  onMessage := onMessage

end HelloWorld

namespace Join

/-- The replies to `JOIN`. -/
def responseCodes : List Bytes :=
  [text ['4', '6', '1'], text ['4', '7', '3'], text ['4', '7', '4'], text ['4', '7', '5'],
    text ['4', '7', '1'], text ['4', '7', '6'], text ['4', '0', '3'], text ['4', '0', '5'],
    text ['3', '3', '2']]

def filter (cmd : IRCMessage) : Bool := cmd.command ∈ responseCodes

/-- What the handler logs about a channel. -/
inductive Report
  | joined (channel topic : Bytes)
  | failed (channel reason : Bytes)
  deriving DecidableEq, Repr

def onMessage (cmd : IRCMessage) : Except Fault Report := do
  let responseCode ← stoi cmd.command
  let channel ← param cmd 0
  let rest ← param cmd 1
  return if responseCode = 332 then .joined channel rest else .failed channel rest

def plugin : SoPlugin Unit where
  filter cmd := .ok (filter cmd)
  onMessage _ cmd := do
    let _ ← onMessage cmd
    return ((), [])

end Join

def Clipboard.plugin : SoPlugin Clipboard where
  filter cmd := .ok (Clipboard.filter cmd)
  onMessage := Clipboard.onMessage

/-- No bundled plugin reads beyond the parameters of the message, nor does the helper. -/
structure InRange (m : IRCMessage) : Prop where
  uptime : Uptime.plugin.InRange m
  clipboard : Clipboard.plugin.InRange m
  ping : Ping.plugin.InRange m
  helloWorld : HelloWorld.plugin.InRange m
  join : Join.plugin.InRange m
  responseDestination : responseDestination m ≠ .error .outOfRange

/-- The parameters that the plugins take a message to have. -/
structure Complete (m : IRCMessage) : Prop where
  privmsg : m.command = Plugin.privmsg → 2 ≤ m.params.length
  ping : m.command = text ['P', 'I', 'N', 'G'] → 1 ≤ m.params.length
  join : m.command ∈ Join.responseCodes → 2 ≤ m.params.length

section
variable {m : IRCMessage}

theorem SoPlugin.inRange_iff {σ : Type} [Nonempty σ] {p : SoPlugin σ} {n : ℕ} {b : Bool}
    (hfilter : p.filter m = .ok b)
    (honMessage : ∀ s, b = true → (p.onMessage s m ≠ .error .outOfRange ↔ n ≤ m.params.length)) :
    p.InRange m ↔ (b = true → n ≤ m.params.length) := by
  constructor
  · intro h hb
    obtain ⟨s⟩ := ‹Nonempty σ›
    exact (honMessage s hb).mp (h.onMessage (hb ▸ hfilter) s)
  · intro h
    refine ⟨by rw [hfilter]; exact nofun, fun hpass s => ?_⟩
    have hb : b = true := Except.ok.inj (hfilter.symm.trans hpass)
    exact (honMessage s hb).mpr (h hb)

theorem Uptime.inRange_iff :
    Uptime.plugin.InRange m ↔ (m.command = Plugin.privmsg → 2 ≤ m.params.length) := by
  by_cases hcmd : m.command = Plugin.privmsg
  · have hfilter : Uptime.plugin.filter m = (param m 1 >>= fun p =>
        .ok (startsWith p (text ['!', 'u', 'p', 't', 'i', 'm', 'e']))) := if_pos hcmd
    constructor
    · intro h _
      have hread := h.filter
      rw [hfilter, bind_param_ne_iff] at hread
      exact hread.1
    · intro h
      have hlen := h hcmd
      refine ⟨?_, fun _ uptime => ?_⟩
      · rw [hfilter, bind_param_ne_iff]
        exact ⟨hlen, nofun⟩
      · change (responseDestination m >>= fun destination => _) ≠ _
        rw [bind_pure_ne_iff, responseDestination_ne_iff]
        exact fun _ => Nat.le_of_succ_le hlen
  · have hfilter : Uptime.plugin.filter m = .ok false := if_neg hcmd
    refine iff_of_true ⟨?_, fun hpass => ?_⟩ fun h => (hcmd h).elim
    · rw [hfilter]
      exact nofun
    · rw [hfilter] at hpass
      cases hpass

theorem Ping.inRange_iff :
    Ping.plugin.InRange m ↔ (m.command = text ['P', 'I', 'N', 'G'] → 1 ≤ m.params.length) := by
  rw [SoPlugin.inRange_iff (b := Ping.filter m) rfl fun _ _ => ?_, Ping.filter, decide_eq_true_eq]
  change (Ping.onMessage m >>= fun out => _) ≠ _ ↔ _
  rw [bind_pure_ne_iff, Ping.onMessage, bind_pure_ne_iff, lastParam_ne_iff]

theorem HelloWorld.inRange_iff :
    HelloWorld.plugin.InRange m ↔ (m.command = Plugin.privmsg → 2 ≤ m.params.length) := by
  rw [SoPlugin.inRange_iff (b := HelloWorld.filter m) rfl fun message _ => ?_, HelloWorld.filter,
    decide_eq_true_eq]
  change (param m 1 >>= fun p => _) ≠ _ ↔ _
  rw [bind_param_ne_iff]
  refine ⟨fun h => h.1, fun h => ⟨h, ?_⟩⟩
  dsimp only
  split <;> nofun

theorem Join.stoi_responseCode (h : m.command ∈ Join.responseCodes) :
    ∃ n, stoi m.command = .ok n := by
  have hcodes : ∀ code ∈ Join.responseCodes, (stoi code).isOk = true := List.all_eq_true.mp (by decide)
  have hok := hcodes m.command h
  cases hs : stoi m.command with
  | error e =>
    rw [hs] at hok
    cases hok
  | ok n => exact ⟨n, rfl⟩

theorem Join.inRange_iff :
    Join.plugin.InRange m ↔ (m.command ∈ Join.responseCodes → 2 ≤ m.params.length) := by
  rw [SoPlugin.inRange_iff (b := Join.filter m) rfl fun _ hpass => ?_, Join.filter, decide_eq_true_eq]
  obtain ⟨n, hn⟩ := stoi_responseCode (of_decide_eq_true hpass)
  change (Join.onMessage m >>= fun _ => _) ≠ _ ↔ _
  rw [bind_pure_ne_iff, Join.onMessage, hn, bind_ok, bind_param_ne_iff]
  constructor
  · rintro ⟨_, h⟩
    rw [bind_param_ne_iff] at h
    exact h.1
  · intro h
    refine ⟨by omega, ?_⟩
    rw [bind_param_ne_iff]
    exact ⟨h, nofun⟩

theorem Clipboard.handle_ne_outOfRange (c : Clipboard) (name data : Bytes) :
    c.handle name data ≠ .error .outOfRange := by
  by_cases hsave : Clipboard.clipSave <+: data
  · obtain ⟨content, rfl⟩ := hsave
    rw [Clipboard.handle_save]
    simp
  · by_cases hrm : Clipboard.clipRm <+: data
    · rw [Clipboard.handle_rm hrm]
      by_cases hlen : 9 ≤ data.length
      · by_cases hstoi : ∃ n, stoi (data.drop 9) = .ok n
        · obtain ⟨n, hn⟩ := hstoi
          rw [Clipboard.rm_of_stoi hlen hn, Clipboard.eraseAt]
          split_ifs <;> simp
        · rw [Clipboard.rm_of_stoi_error hlen fun n hn => hstoi ⟨n, hn⟩]
          simp
      · rw [Clipboard.rm_of_short (by omega)]
        simp
    · obtain ⟨d, out, hother, -⟩ := Clipboard.handle_other c name hsave hrm
      rw [hother]
      simp

theorem Clipboard.inRange_iff :
    Clipboard.plugin.InRange m ↔ (m.command = Plugin.privmsg → 2 ≤ m.params.length) := by
  have : Nonempty Clipboard := ⟨Clipboard.new ⟨10, 512⟩⟩
  rw [SoPlugin.inRange_iff (b := Clipboard.filter m) rfl fun c _ => ?_, Clipboard.filter,
    decide_eq_true_eq]
  change Clipboard.onMessage c m ≠ _ ↔ _
  rw [Clipboard.onMessage, bind_param_ne_iff]
  constructor
  · rintro ⟨_, h⟩
    rw [bind_param_ne_iff] at h
    exact h.1
  · intro h
    refine ⟨by omega, ?_⟩
    rw [bind_param_ne_iff]
    exact ⟨h, Clipboard.handle_ne_outOfRange c _ _⟩

/-- The bundled plugins stay inside the parameters exactly if the message is complete. -/
theorem inRange_iff_complete : InRange m ↔ Complete m := by
  constructor
  · intro h
    exact ⟨Uptime.inRange_iff.mp h.uptime, Ping.inRange_iff.mp h.ping, Join.inRange_iff.mp h.join⟩
  · intro h
    refine ⟨Uptime.inRange_iff.mpr h.privmsg, Clipboard.inRange_iff.mpr h.privmsg,
      Ping.inRange_iff.mpr h.ping, HelloWorld.inRange_iff.mpr h.privmsg,
      Join.inRange_iff.mpr h.join, ?_⟩
    exact responseDestination_ne_iff.mpr fun hcmd => Nat.le_of_succ_le (h.privmsg hcmd)

end

/-- For a line the words behind the command decide, whatever the command is. -/
theorem line_inRange_iff {o : Origin} {c z : Bytes} (ho : o.Clean) (hc : o.Accepts c) {gap : ℕ}
    (hgap : o = .absent → gap = 0) (hz : IsTrailing z) (b : Bool) :
    (∀ m ∈ IRCParser.messagesOf (lineOf o gap c z b), InRange m) ↔
      (c = Plugin.privmsg → 2 ≤ (paramsOf z).length) ∧
        (c = text ['P', 'I', 'N', 'G'] → 1 ≤ (paramsOf z).length) ∧
          (c ∈ Join.responseCodes → 2 ≤ (paramsOf z).length) := by
  rw [messagesOf_lineOf ho hc hgap hz b, List.forall_mem_singleton, inRange_iff_complete]
  exact ⟨fun h => ⟨h.privmsg, h.ping, h.join⟩, fun ⟨hprivmsg, hping, hjoin⟩ => ⟨hprivmsg, hping, hjoin⟩⟩

/-- And any number of words can stand there. -/
theorem exists_line {c : Bytes} (hc : IsCommand c) (n : ℕ) :
    ∃ w m, IRCParser.messagesOf w = [m] ∧ m.command = c ∧ m.params.length = n := by
  obtain ⟨z, hz, hn⟩ := exists_length_paramsOf n
  have hclean : Origin.absent.Clean := trivial
  have hline := messagesOf_lineOf hclean (hc.accepts .absent) (fun _ => rfl) hz true
  exact ⟨_, _, hline, rfl, hn⟩

/-- No message of a byte stream makes a bundled plugin read out of range exactly if all those
that the parser emits have the parameters that the plugins take them to have. -/
theorem emitted_in_range_iff (chunks : List Bytes) :
    (∀ m ∈ Dispatch.emitted chunks, InRange m) ↔ ∀ m ∈ Dispatch.emitted chunks, Complete m :=
  forall₂_congr fun _ _ => inRange_iff_complete

/-- `PRIVMSG` with one parameter. -/
def shortPrivmsg : Bytes := text "PRIVMSG a\r\n".toList

theorem shortPrivmsg_out_of_range :
    ¬ ∀ chunks, ∀ m ∈ Dispatch.emitted chunks, InRange m := by
  intro h
  have hemitted : Dispatch.emitted [shortPrivmsg] =
      [{ command := Plugin.privmsg, params := [text ['a']] }] := by decide +kernel
  have hread := (h [shortPrivmsg] _ (by rw [hemitted]; exact List.mem_singleton.mpr rfl)).uptime
  exact absurd (Uptime.inRange_iff.mp hread rfl) (by decide)

end IrcBot.Plugins
