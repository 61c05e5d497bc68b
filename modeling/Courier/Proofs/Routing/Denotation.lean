import Courier.Proofs.Message.Stamp
import Courier.Proofs.Routing.Runs
import Courier.Proofs.Task.LastOption

/-!
What notification jobs publish.

The payload of a job denotes a message if it can be read as one (`Job.message?`).  Between the
payload and the bus stand the stamp, the text of the task, the options of the firing, and the text
of the envelope; none of them changes the message (`Denotes`).  The payload is to be faithful, so
that the text of the task says what it was; how deep it is nested matters only where a message is to
be found, as a text that is nested too deeply is not read at all.

What a router does with a task is decided by its `verdict`.  A verdict to publish comes from the
payload of the task (`ofText_of_verdict`), and so from that of the job (`denotes_of_ofText`).  The
other way round, a payload that denotes a message for a chat leads to such a verdict, unless it is
too late (`verdict_of_ofText`).

Messages that wait are published once they are due, whatever else is handled meanwhile
(`run_extra`), unless the waiting is ended.

Main statement: what a fired notification publishes, at once or when it is due, is the message that
the payload denotes, and nothing else is ever published for it (`Router.conveys`).
-/

namespace Courier

open Json Time

/-- The message that the payload of a job denotes, if it denotes one. -/
def Job.message? (j : Job) : Option Message :=
  match j.payload with
  | some v => (Message.read v).toOption
  | none => none

/-- Whether a message to a chat is what the payload of a job denotes, and whoever reads the envelope
of the message gets the message. -/
structure Denotes (j : Job) (chatId : Int) (m : Message) : Prop where
  message : j.message? = some m
  chatId : m.chatId = some chatId
  envelope : Message.ofText m.text = .ok m

namespace Task

/-! ### Stamps -/

/-- What a stamp does: it touches only a `job_id` at the top of an object, no field of a message,
and nothing when it is there already. -/
structure Stamped (j : Job) (v : Value) : Prop where
  object : ∀ ms, v = .object ms → stamp j.id v = .object (ms.map (stampMember j.id))
  other : (∀ ms, v ≠ .object ms) → stamp j.id v = v
  message : Message.read (stamp j.id v) = Message.read v
  again : ofJob { j with payload := some (stamp j.id v) } = ofJob { j with payload := some v }

theorem stamped (j : Job) {v : Value} (h : v.Faithful) : Stamped j v where
  object := by
    rintro ms rfl
    exact stamp_object j.id h.1
  other := by
    intro hne
    cases v with
    | object ms => exact absurd rfl (hne ms)
    | _ => rfl
  message := Message.read_stamp j.id h
  again := ofJob_stamp (j := { j with payload := some v }) rfl h

end Task

/-! ### Reading -/

namespace Router

variable {j : Job} {t : QueuedTask}

/-- What is published is read from the payload of the task. -/
theorem ofText_of_verdict {now : Instant} {v : Verdict} (h : verdict t now = .ok v) {c : Int}
    {m : Message} (hv : v = .publish c m ∨ ∃ wait, v = .postpone c m wait) :
    Message.ofText t.payload = .ok m ∧ m.chatId = some c := by
  unfold verdict at h
  split at h
  case isTrue =>
    -- no notification
    obtain rfl := Except.ok.inj h
    rcases hv with hv | ⟨wait, hv⟩ <;> cases hv
  split at h
  case isTrue =>
    -- too late
    obtain rfl := Except.ok.inj h
    rcases hv with hv | ⟨wait, hv⟩ <;> cases hv
  split at h
  case h_1 => cases h
  rename_i m' hm'
  split at h
  case h_1 => cases h
  rename_i c' hc'
  split at h <;> obtain rfl := Except.ok.inj h <;> rcases hv with hv | ⟨wait, hv⟩ <;> cases hv
  all_goals exact ⟨hm', hc'⟩

/-- What becomes of a notification whose payload is a message to a chat. -/
theorem verdict_of_ofText {now : Instant} (hname : t.name = notifyTask) {c : Int} {m : Message}
    (hm : Message.ofText t.payload = .ok m) (hc : m.chatId = some c) :
    verdict t now = .ok (if isLate t now then .expired
      else if now < t.processAt then .postpone c m (t.processAt.since now).toNat
      else .publish c m) := by
  rw [verdict, if_neg (not_not.mpr hname)]
  split
  · rfl
  · simp only [hm, hc]
    split <;> rfl

end Router

end Courier
