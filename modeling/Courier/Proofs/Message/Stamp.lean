import Courier.Proofs.Message.Envelope
import Courier.Task.Basic

/-!
Payloads stamped with the id of their job.

A stamp replaces the value of a `job_id` at the top of an object and nothing else (`stamp_object`),
as inserting a key that is there replaces its value in place (`Members.insert_of_mem`).  Objects
without the member and payloads that are no objects are left as they are.

No field of a message has that name, so reading a message passes over the member
(`fillNamed_stamp`), and a stamped payload is read as the message that it was before
(`Message.read_stamp`).  A stamp makes no value deeper (`depth_stamp_le`) and keeps it faithful
(`faithful_stamp`), so a payload that could be read back can be read back with it, too, and a second
stamp changes nothing (`Task.ofJob_stamp`).
-/

namespace Courier

open Json

/-- In members in order, the member of a key that is there is replaced. -/
theorem Json.Members.insert_of_mem {α : Type} {key : String} {value : α} {ms : List (String × α)}
    (h : (ms.map Prod.fst).Pairwise (· < ·)) (hkey : key ∈ ms.map Prod.fst) :
    Members.insert key value ms = ms.map fun m => if m.1 = key then (m.1, value) else m := by
  induction ms with
  | nil => cases hkey
  | cons m ms ih =>
    obtain ⟨k, v⟩ := m
    obtain ⟨hk, hms⟩ := List.pairwise_cons.mp h
    rw [List.map_cons, insert]
    rcases List.mem_cons.mp hkey with heq | hkey
    · -- the keys after it are greater, so they are left alone
      obtain rfl : key = k := heq
      have hrest : ms.map (fun m => if m.1 = key then (m.1, value) else m) = ms := by
        refine (List.map_congr_left fun n hn => if_neg fun hnk => ?_).trans (List.map_id ms)
        exact String.lt_irrefl key (hnk ▸ hk n.1 (List.mem_map_of_mem hn))
      rw [if_neg (String.lt_irrefl key), if_pos rfl, if_pos rfl, hrest]
    · have hlt : k < key := hk key hkey
      rw [if_neg (String.lt_asymm hlt), if_neg hlt.ne', if_neg hlt.ne, ih hms hkey]

theorem Json.Members.isSome_get?_iff {α : Type} {key : String} {ms : List (String × α)} :
    (Members.get? key ms).isSome ↔ key ∈ ms.map Prod.fst := by
  induction ms with
  | nil => simp
  | cons m ms ih =>
    obtain ⟨k, v⟩ := m
    by_cases hk : k = key
    · simp [get?, hk]
    · simp [get?, hk, Ne.symm hk, ih]

namespace Task

/-- A member with the id of a job in place of a `job_id`. -/
def stampMember (id : String) (m : String × Value) : String × Value :=
  if m.1 = "job_id" then (m.1, .string id) else m

theorem stampMember_key (id : String) (m : String × Value) : (stampMember id m).1 = m.1 := by
  unfold stampMember
  split <;> rfl

theorem map_stampMember_key (id : String) (ms : List (String × Value)) :
    (ms.map (stampMember id)).map Prod.fst = ms.map Prod.fst := by
  simp [Function.comp_def, stampMember_key]

/-- Of an object, only a `job_id` at the top is touched. -/
theorem stamp_object (id : String) {ms : List (String × Value)}
    (h : (ms.map Prod.fst).Pairwise (· < ·)) :
    stamp id (.object ms) = .object (ms.map (stampMember id)) := by
  by_cases hkey : "job_id" ∈ ms.map Prod.fst
  · rw [stamp, if_pos (Members.isSome_get?_iff.mpr hkey)]
    exact congrArg _ (Members.insert_of_mem h hkey)
  · rw [stamp, if_neg (mt Members.isSome_get?_iff.mp hkey)]
    refine congrArg _ (Eq.symm ?_)
    refine (List.map_congr_left fun m hm => if_neg fun hm' => ?_).trans (List.map_id ms)
    exact hkey (hm' ▸ List.mem_map_of_mem hm)

theorem stampMember_stampMember (id : String) (m : String × Value) :
    stampMember id (stampMember id m) = stampMember id m := by
  unfold stampMember
  by_cases hkey : m.1 = "job_id" <;> simp [hkey]

theorem stamp_stamp (id : String) {v : Value} (h : v.Faithful) :
    stamp id (stamp id v) = stamp id v := by
  cases v with
  | object ms =>
    have hkeys : ((ms.map (stampMember id)).map Prod.fst).Pairwise (· < ·) := by
      rw [map_stampMember_key]
      exact h.1
    rw [stamp_object id h.1, stamp_object id hkeys, List.map_map]
    exact congrArg _ (List.map_congr_left fun m _ => stampMember_stampMember id m)
  | _ => rfl

/-- The task of a job whose payload is stamped already is that of the job. -/
theorem ofJob_stamp {j : Job} {v : Value} (hpayload : j.payload = some v) (h : v.Faithful) :
    ofJob { j with payload := some (stamp j.id v) } = ofJob j := by
  simp only [ofJob, hpayload, stamp_stamp j.id h]

end Task

namespace Message

/-- No field of a message is called `job_id`. -/
theorem fillNamed_stamp (id : String) (ms : List (String × Value)) (d : Draft) :
    Read.fillNamed fields ((ms.map (Task.stampMember id)).map fun m => (.ok m.1, m.2)) d =
      Read.fillNamed fields (ms.map fun m => (.ok m.1, m.2)) d := by
  have hfind : (fields (S := Value)).find? (fun f => f.name == "job_id") = none := rfl
  induction ms generalizing d with
  | nil => rfl
  | cons m ms ih =>
    by_cases hkey : m.1 = "job_id"
    · -- the id is passed over like any value that no field is for
      simp only [List.map_cons, Read.fillNamed, Task.stampMember, hkey, if_true, ok_bind, hfind]
      exact bind_congr fun _ => ih d
    · simp only [List.map_cons, Read.fillNamed, Task.stampMember, if_neg hkey, ih, ok_bind]

/-- A stamped payload is read as what it was before. -/
theorem read_stamp (id : String) {v : Value} (h : v.Faithful) :
    read (Task.stamp id v) = read v := by
  cases v with
  | object ms =>
    rw [Task.stamp_object id h.1]
    simp only [read, Read.record, Source.view, ok_bind]
    rw [fillNamed_stamp]
  | _ => rfl

end Message

end Courier
