import IrcBot.Protocol.Agreement
import IrcBot.Protocol.Merging

/-! What becomes of several writes that arrive in one read, at both ends of a plugin
connection. Towards a `TcpPlugin` the last request is left, with the parameters of the IRC
messages right before it. Towards a remote plugin callbacks get lost unless all writes of a
read but the last one are without a callback. -/
namespace IrcBot
open PluginProtocol Irc

namespace TcpPlugin

/-- A request, and one that comes in the same read. -/
def Request.absorb : Option Request → Request → Request
  | some (.ircMessage m), .ircMessage m' => .ircMessage { m' with params := m.params ++ m'.params }
  | _, r => r

/-- What a read of these requests is passed on as. -/
def merged (rs : List Request) : Option Request :=
  rs.foldl (fun r r' => some (Request.absorb r r')) none

theorem merge_message (r : Option Request) (r' : Request) :
    ((r.map Bot.message).getD {}).merge (Bot.message r') = Bot.message (Request.absorb r r') := by
  rcases r with _ | r
  · cases r' <;> rfl
  · cases r <;> cases r' <;> rfl

theorem foldl_merge_message (r : Option Request) (rs : List Request) :
    (rs.map Bot.message).foldl Message.merge ((r.map Bot.message).getD {}) =
      ((rs.foldl (fun r r' => some (Request.absorb r r')) r).map Bot.message).getD {} := by
  induction rs generalizing r with
  | nil => rfl
  | cons r' rs ih =>
    rw [List.map_cons, List.foldl_cons, merge_message, List.foldl_cons]
    exact ih (some (Request.absorb r r'))

theorem parseMessage_of_parse {data : Bytes} {r : Request}
    (h : Message.parseFromString data = some (Bot.message r)) : parseMessage data = some r := by
  rw [parseMessage, h]
  cases r <;> rfl

/-- A read of whole requests is passed on as one of them. -/
theorem parseMessage_flatten {rs : List Request}
    (hlen : (rs.map Bot.write).flatten.length < 2 ^ 31) :
    parseMessage (rs.map Bot.write).flatten = merged rs := by
  have hwrite : rs.map Bot.write = (rs.map Bot.message).map Message.serializeToString := by
    rw [List.map_map]
    exact List.map_congr_left fun r _ => Bot.write_eq r
  rw [hwrite] at hlen ⊢
  have hparse := Message.parse_concat hlen
  rw [show ({} : Message) = ((none : Option Request).map Bot.message).getD {} from rfl,
    foldl_merge_message none rs] at hparse
  change _ = (some (((merged rs).map Bot.message).getD {})).filter Message.isInitialized at hparse
  cases hm : merged rs with
  | none =>
    rw [hm] at hparse
    rw [parseMessage, hparse]
    rfl
  | some r =>
    refine parseMessage_of_parse ?_
    rw [hparse, hm]
    cases r <;> rfl

/-- However the writes of a remote plugin are grouped into reads, each group is passed on as
one request: the last one, to which the IRC messages right before it leave their parameters. -/
theorem parseMessage_coalesced (groups : List (List Request))
    (hlen : ∀ rs ∈ groups, (rs.map Bot.write).flatten.length ≤ bufferSize) :
    (groups.map fun rs => (rs.map Bot.write).flatten).filterMap parseMessage =
      groups.filterMap merged := by
  induction groups with
  | nil => rfl
  | cons rs groups ih =>
    have hrs := parseMessage_flatten ((hlen rs (by simp)).trans_lt (by decide))
    have hrest := ih fun rs' hrs' => hlen rs' (by simp [hrs'])
    rw [List.map_cons, List.filterMap_cons, hrs, List.filterMap_cons, hrest]

/-- The request to be initialized is lost when a message comes in the same read. -/
theorem parseMessage_coalesced_init :
    let groups : List (List Request) :=
      [[.initRequest (text ['p']) (text ['t']), .ircMessage { command := text ['A'] }],
        [.ircMessage { command := text ['B'], params := [text ['x']] },
          .ircMessage { command := text ['C'], params := [text ['y']] }]]
    (groups.map fun rs => (rs.map Bot.write).flatten).filterMap parseMessage =
      [.ircMessage { command := text ['A'] },
        .ircMessage { command := text ['C'], params := [text ['x'], text ['y']] }] := by
  intro groups
  exact (parseMessage_coalesced groups (by decide)).trans (by decide)

end TcpPlugin

namespace TcpPlugin.Event

/-- The message that is read from a write. -/
def parsed : Event → Message
  | .init => ⟨some .initRequest, none⟩
  | .message m => ⟨some .ircMessage, some (.ircMsg m.toProtobuf)⟩
  | .shutdown => ⟨some .controlRequest, some (.ctrlReq { type := some .shutdown })⟩
  | .authenticated status => ⟨some .initResponse, some (.initResp ⟨some status⟩)⟩

theorem write_eq (e : Event) : e.write = e.parsed.serializeToString := by
  cases e with
  | init => decide
  | message | shutdown | authenticated => rfl

end TcpPlugin.Event

namespace Bot
open TcpPlugin (Event)
open TcpPlugin.Event (calls call expected)

/-- The data of a read, and one more write in it. -/
def absorb : Option Incoming → Event → Option Incoming
  | d, .init => d
  | some (.ircMessage m), .message m' => some (.ircMessage { m' with params := m.params ++ m'.params })
  | _, .message m => some (.ircMessage m)
  | _, .shutdown => some (.controlRequest .shutdown)
  | _, .authenticated status => some (.initResponse status)

/-- The branch that a read of these writes takes: none if the last one is for `onInit`, which
leaves a type that no branch is for. -/
def coalesced (es : List Event) : Option Incoming :=
  if es.getLast? = some .init then none else es.foldl absorb none

namespace Incoming

def data : Incoming → Data
  | .initResponse status => .initResp ⟨some status⟩
  | .ircMessage m => .ircMsg m.toProtobuf
  | .controlRequest type => .ctrlReq { type := some type }

/-- The callbacks of a branch. -/
def calls (p : Plugin) : Incoming → List Call
  | .initResponse _ => []
  | .ircMessage m => p.call (.onMessage m)
  | .controlRequest .init => p.call .onInit
  | .controlRequest .shutdown => p.call .onShutdown
  | .controlRequest .reload => p.call .onReload
  | .controlRequest .restart => p.call .onRestart

end Incoming

theorem merge_parsed (t : Option MessageType) (d : Option Incoming) (e : Event) :
    (Message.mk t (d.map Incoming.data)).merge e.parsed =
      ⟨e.parsed.type, (absorb d e).map Incoming.data⟩ := by
  rcases d with _ | d
  · cases e <;> rfl
  · cases d <;> cases e <;> rfl

theorem foldl_merge_parsed (t : Option MessageType) (d : Option Incoming) (es : List Event) :
    (es.map Event.parsed).foldl Message.merge ⟨t, d.map Incoming.data⟩ =
      ⟨es.foldl (fun _ e => e.parsed.type) t, (es.foldl absorb d).map Incoming.data⟩ := by
  induction es generalizing t d with
  | nil => rfl
  | cons e es ih =>
    rw [List.map_cons, List.foldl_cons, merge_parsed]
    exact ih _ (absorb d e)

theorem isInitialized_parsed (e : Event) (d : Option Incoming) :
    (Message.mk e.parsed.type (d.map Incoming.data)).isInitialized = true := by
  have ht : e.parsed.type.isSome = true := by cases e <;> rfl
  rw [Message.isInitialized, ht, Bool.true_and]
  rcases d with _ | d
  · rfl
  · cases d <;> rfl

theorem parse_writes {es : List Event} {e : Event}
    (hlen : ((es ++ [e]).map Event.write).flatten.length < 2 ^ 31) :
    Message.parseFromString ((es ++ [e]).map Event.write).flatten =
      some ⟨e.parsed.type, (absorb (es.foldl absorb none) e).map Incoming.data⟩ := by
  have hwrite : (es ++ [e]).map Event.write =
      ((es ++ [e]).map Event.parsed).map Message.serializeToString := by
    rw [List.map_map]
    exact List.map_congr_left fun e _ => e.write_eq
  rw [hwrite] at hlen ⊢
  have hparse := Message.parse_concat hlen
  rw [show ({} : Message) = ⟨none, (none : Option Incoming).map Incoming.data⟩ from rfl,
    foldl_merge_parsed none none (es ++ [e])] at hparse
  simp only [List.foldl_append, List.foldl_cons, List.foldl_nil] at hparse
  rw [hparse, Option.filter_some, if_pos (isInitialized_parsed e _)]

variable (salvage : Bytes → Message)

theorem incoming_flatten {es : List Event} (hes : es ≠ [])
    (hlen : (es.map Event.write).flatten.length < 2 ^ 31) :
    incoming salvage (es.map Event.write).flatten = coalesced es := by
  obtain ⟨es, e, rfl⟩ := (List.eq_nil_or_concat' es).resolve_left hes
  rw [incoming, received_of_parse salvage (parse_writes hlen), coalesced, List.getLast?_concat,
    List.foldl_append]
  generalize es.foldl absorb none = d
  cases e with
  | init => rfl
  | message m =>
    rcases d with _ | d
    · rfl
    · cases d <;> rfl
  | shutdown | authenticated =>
    rcases d with _ | d
    · rfl
    · cases d <;> rfl

/-- Branch and callbacks of a read of whole writes. -/
theorem parse_flatten {b : Bot} (hb : b.socketOpen = true) {es : List Event} (hes : es ≠ [])
    (hlen : (es.map Event.write).flatten.length < 2 ^ 31) :
    b.parse salvage (es.map Event.write).flatten =
      (if coalesced es = some (.controlRequest .shutdown) then b.stop else b,
        (coalesced es).toList.flatMap (Incoming.calls b.plugin)) := by
  rw [parse, if_pos hb, incoming_flatten salvage hes hlen]
  rcases coalesced es with _ | d
  · rfl
  · cases d with
    | initResponse status => rfl
    | ircMessage m => simp [Incoming.calls]
    | controlRequest type => cases type <;> simp [controlRequest, Incoming.calls]

/-- The writes of a read are heard one by one: all but the last one are without a callback, and
the last one is not for a callback `onInit`. -/
def Alone (p : Plugin) (es : List Event) : Prop :=
  (∀ e ∈ es.dropLast, calls p e = []) ∧ (es.getLast? = some .init → p.onInit = false)

/-- The reads up to the first one that ends with a shutdown request are heard, and nothing is
due after it. -/
def Heard (p : Plugin) : List (List Event) → Prop
  | [] => True
  | es :: groups =>
    Alone p es ∧ if es.getLast? = some .shutdown then expected p groups.flatten = [] else Heard p groups

instance (p : Plugin) (es : List Event) : Decidable (Alone p es) :=
  inferInstanceAs (Decidable (_ ∧ _))

instance Heard.decidable (p : Plugin) : (groups : List (List Event)) → Decidable (Heard p groups)
  | [] => .isTrue trivial
  | es :: groups =>
    have := decidable p groups
    inferInstanceAs (Decidable (_ ∧ if es.getLast? = some .shutdown then _ else _))

theorem coalesced_concat (es : List Event) (e : Event) :
    coalesced (es ++ [e]) = if e = .init then none else absorb (es.foldl absorb none) e := by
  rw [coalesced, List.getLast?_concat, List.foldl_append]
  simp

theorem coalesced_eq_shutdown_iff {es : List Event} (hes : es ≠ []) :
    coalesced es = some (.controlRequest .shutdown) ↔ es.getLast? = some .shutdown := by
  obtain ⟨es, e, rfl⟩ := (List.eq_nil_or_concat' es).resolve_left hes
  rw [coalesced_concat, List.getLast?_concat]
  generalize es.foldl absorb none = d
  rcases d with _ | d
  · cases e <;> simp [absorb]
  · cases d <;> cases e <;> simp [absorb]

theorem expected_append (p : Plugin) (es es' : List Event) :
    expected p (es ++ es') = expected p es ++ expected p es' := by
  simp [expected]

/-- Without a message before it nothing is added to the data of the last write. -/
theorem foldl_absorb_ne {es : List Event} (h : ∀ m, .message m ∉ es) {d : Option Incoming}
    (hd : ∀ m, d ≠ some (.ircMessage m)) (m : IRCMessage) :
    es.foldl absorb d ≠ some (.ircMessage m) := by
  induction es generalizing d with
  | nil => exact hd m
  | cons e es ih =>
    rw [List.foldl_cons]
    refine ih (fun m' hm' => h m' (by simp [hm'])) fun m' => ?_
    cases e with
    | init => exact hd m'
    | message m'' => exact absurd (by simp) (h m'')
    | shutdown | authenticated =>
      rcases d with _ | d
      · simp [absorb]
      · cases d <;> simp [absorb]

theorem calls_init_eq_nil_iff (p : Plugin) : calls p .init = [] ↔ p.onInit = false := by
  cases h : p.onInit <;> simp [calls, call, Plugin.call, Plugin.has, h]

/-- Only the last write of a read has a callback invoked. -/
theorem length_calls_coalesced_le (p : Plugin) (es : List Event) (e : Event) :
    ((coalesced (es ++ [e])).toList.flatMap (Incoming.calls p)).length ≤ (calls p e).length := by
  rw [coalesced_concat]
  generalize es.foldl absorb none = d
  have hmessage : ∀ m m' : IRCMessage,
      (p.call (.onMessage m)).length = (p.call (.onMessage m')).length := by
    intro m m'
    cases h : p.onMessage <;> simp [Plugin.call, Plugin.has, h]
  cases e with
  | init => simp
  | message m =>
    rcases d with _ | d
    · simp [absorb, Incoming.calls, calls, call]
    · cases d with
      | ircMessage m' =>
        simpa [absorb, Incoming.calls, calls, call] using (hmessage _ m).le
      | initResponse | controlRequest => simp [absorb, Incoming.calls, calls, call]
  | shutdown | authenticated =>
    rcases d with _ | d
    · simp [absorb, Incoming.calls, calls, call]
    · cases d <;> simp [absorb, Incoming.calls, calls, call]

/-- If nothing is due before the last write, it gets its callback. -/
theorem calls_coalesced {p : Plugin} {es : List Event} {e : Event} (hes : expected p es = [])
    (he : e = .init → p.onInit = false) :
    (coalesced (es ++ [e])).toList.flatMap (Incoming.calls p) = calls p e := by
  rw [coalesced_concat]
  cases e with
  | init => simp [(calls_init_eq_nil_iff p).mpr (he rfl)]
  | message m =>
    cases hm : p.onMessage with
    | false =>
      have hnone : ∀ m', p.call (.onMessage m') = [] := by simp [Plugin.call, Plugin.has, hm]
      generalize es.foldl absorb none = d
      rcases d with _ | d
      · simp [absorb, Incoming.calls, calls, call, hnone]
      · cases d <;> simp [absorb, Incoming.calls, calls, call, hnone]
    | true =>
      -- a message in the same read would be due, so none adds its parameters
      have hno : ∀ m', Event.message m' ∉ es := by
        intro m' hm'
        have := List.flatMap_eq_nil_iff.mp hes _ hm'
        simp [calls, call, Plugin.call, Plugin.has, hm] at this
      have hd := foldl_absorb_ne hno (d := none) (by simp)
      generalize es.foldl absorb none = d at hd ⊢
      rcases d with _ | d
      · simp [absorb, Incoming.calls, calls, call]
      · cases d with
        | ircMessage m' => exact absurd rfl (hd m')
        | initResponse | controlRequest => simp [absorb, Incoming.calls, calls, call]
  | shutdown | authenticated =>
    generalize es.foldl absorb none = d
    rcases d with _ | d
    · simp [absorb, Incoming.calls, calls, call]
    · cases d <;> simp [absorb, Incoming.calls, calls, call]

theorem calls_coalesced_iff (p : Plugin) {es : List Event} (hes : es ≠ []) :
    (coalesced es).toList.flatMap (Incoming.calls p) = expected p es ↔ Alone p es := by
  obtain ⟨es, e, rfl⟩ := (List.eq_nil_or_concat' es).resolve_left hes
  have hlast : expected p [e] = calls p e := by simp
  have halone : Alone p (es ++ [e]) ↔ expected p es = [] ∧ (e = .init → p.onInit = false) := by
    rw [Alone, List.dropLast_concat, List.getLast?_concat, expected, List.flatMap_eq_nil_iff]
    simp
  rw [halone, expected_append, hlast]
  constructor
  · intro h
    have hle := length_calls_coalesced_le p es e
    rw [h, List.length_append] at hle
    have hdue : expected p es = [] := List.length_eq_zero_iff.mp (by omega)
    refine ⟨hdue, ?_⟩
    rintro rfl
    rw [coalesced_concat, if_pos rfl, hdue] at h
    exact (calls_init_eq_nil_iff p).mp h.symm
  · rintro ⟨hdue, he⟩
    rw [calls_coalesced hdue he, hdue, List.nil_append]

theorem length_calls_coalesced_le_expected (p : Plugin) {es : List Event} (hes : es ≠ []) :
    ((coalesced es).toList.flatMap (Incoming.calls p)).length ≤ (expected p es).length := by
  obtain ⟨es, e, rfl⟩ := (List.eq_nil_or_concat' es).resolve_left hes
  have hle := length_calls_coalesced_le p es e
  have hlast : expected p [e] = calls p e := by simp
  rw [expected_append, List.length_append, hlast]
  omega

theorem out_cons_flatten {b : Bot} (hb : b.socketOpen = true) {es : List Event} (hes : es ≠ [])
    (hlen : (es.map Event.write).flatten.length < 2 ^ 31) (reads : List Bytes) :
    (receive salvage).out b ((es.map Event.write).flatten :: reads) =
      (coalesced es).toList.flatMap (Incoming.calls b.plugin) ++
        if es.getLast? = some .shutdown then [] else (receive salvage).out b reads := by
  rw [Machine.Mealy.out_cons, receive_step, parse_flatten salvage hb hes hlen]
  by_cases hs : es.getLast? = some .shutdown
  · rw [if_pos ((coalesced_eq_shutdown_iff hes).mpr hs), if_pos hs, out_stop]
  · rw [if_neg (mt (coalesced_eq_shutdown_iff hes).mp hs), if_neg hs]

/-- No more callbacks are invoked than are due, however the writes are grouped. -/
theorem length_out_flatten_le {b : Bot} (hb : b.socketOpen = true) {groups : List (List Event)}
    (hne : ∀ es ∈ groups, es ≠ [])
    (hlen : ∀ es ∈ groups, (es.map Event.write).flatten.length < 2 ^ 31) :
    ((receive salvage).out b (groups.map fun es => (es.map Event.write).flatten)).length ≤
      (expected b.plugin groups.flatten).length := by
  induction groups with
  | nil => simp
  | cons es groups ih =>
    have hfirst := length_calls_coalesced_le_expected b.plugin (hne es (by simp))
    have hrest := ih (fun es' h => hne es' (by simp [h])) fun es' h => hlen es' (by simp [h])
    rw [List.map_cons, out_cons_flatten salvage hb (hne es (by simp)) (hlen es (by simp)),
      List.flatten_cons, expected_append, List.length_append, List.length_append]
    split
    · simp only [List.length_nil]
      omega
    · omega

/-- Lists that are no longer than others are appended to the same list only if they are equal. -/
theorem append_eq_append_iff_of_length_le {α : Type*} {as bs as' bs' : List α}
    (ha : as.length ≤ as'.length) (hb : bs.length ≤ bs'.length) :
    as ++ bs = as' ++ bs' ↔ as = as' ∧ bs = bs' := by
  constructor
  · intro h
    have hlen := congrArg List.length h
    rw [List.length_append, List.length_append] at hlen
    exact List.append_inj h (by omega)
  · rintro ⟨rfl, rfl⟩
    rfl

/-- Agreement when writes are grouped into reads: the callbacks invoked are the ones due exactly
if in every read, up to the one that ends with a shutdown request, no callback is due for a
write but the last one, no read ends with a request for a callback `onInit`, and nothing is due
after the shutdown. -/
theorem out_coalesced_iff (b : Bot) (hb : b.socketOpen = true) (groups : List (List Event))
    (hne : ∀ es ∈ groups, es ≠ [])
    (hlen : ∀ es ∈ groups, (es.map Event.write).flatten.length ≤ bufferSize) :
    (receive salvage).out b (groups.map fun es => (es.map Event.write).flatten) =
      expected b.plugin groups.flatten ↔ Heard b.plugin groups := by
  have hlen' : ∀ es ∈ groups, (es.map Event.write).flatten.length < 2 ^ 31 := fun es h =>
    (hlen es h).trans_lt (by decide)
  clear hlen
  induction groups with
  | nil => simp [Heard]
  | cons es groups ih =>
    have hes := hne es (by simp)
    have hne' : ∀ es' ∈ groups, es' ≠ [] := fun es' h => hne es' (by simp [h])
    have hrest : ∀ es' ∈ groups, (es'.map Event.write).flatten.length < 2 ^ 31 := fun es' h =>
      hlen' es' (by simp [h])
    have hfirst := length_calls_coalesced_le_expected b.plugin hes
    have hothers := length_out_flatten_le salvage hb hne' hrest
    rw [List.map_cons, out_cons_flatten salvage hb hes (hlen' es (by simp)), List.flatten_cons,
      expected_append, Heard, ← calls_coalesced_iff b.plugin hes]
    by_cases hs : es.getLast? = some .shutdown
    · rw [if_pos hs, if_pos hs, append_eq_append_iff_of_length_le hfirst (Nat.zero_le _)]
      exact and_congr_right' eq_comm
    · have hgroups := ih hne' hrest
      rw [if_neg hs, if_neg hs, append_eq_append_iff_of_length_le hfirst hothers]
      exact and_congr_right' hgroups

/-- An answer and a message in one read, then the shutdown. -/
theorem out_coalesced_message :
    let groups : List (List Event) :=
      [[.authenticated .ok, .message { command := text ['P', 'I', 'N', 'G'] }], [.shutdown]]
    (receive fun _ => {}).out fullBot (groups.map fun es => (es.map Event.write).flatten) =
      expected fullBot.plugin groups.flatten := by
  intro groups
  exact (out_coalesced_iff _ fullBot rfl groups (by decide) (by decide)).mpr (by decide)

end Bot
end IrcBot
