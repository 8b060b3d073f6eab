import Redon.DiskSession
import Redon.Proofs.DiskStore

/-!
# The on-disk engine refines a map

One call on a store that stands for a map answers as the map does and stands for the map after it
(`call_rep`); so does a run of calls. A session, however it ends, leaves a file of complete records
and part of one more that make the session's map (`serve_stored`), which is what opening it next
starts from. Hence every answer of every session is the map's (`disk_refines_map`).
-/

namespace Redon

open Lib Mutation

variable {m : Map} {d : DiskStore} {bytes : Bytes}

theorem call_rep {c : DiskCall} (h : DiskStore.Rep m d) (hc : c.Ok) :
    (d.call c).1 = (c.onMap m).1 ∧ DiskStore.Rep (c.onMap m).2 (d.call c).2 := by
  cases c with
  | set k v =>
    obtain ⟨ha, hr⟩ := h.set hc
    exact ⟨congrArg _ ha, hr⟩
  | get k => exact ⟨congrArg _ (h.get k), h⟩
  | del k =>
    obtain ⟨ha, hr⟩ := h.del hc
    exact ⟨congrArg _ ha, hr⟩
  | «exists» k => exact ⟨congrArg _ (h.exists? k), h⟩
  | size => exact ⟨congrArg _ h.size, h⟩
  | clear =>
    obtain ⟨ha, hr⟩ := h.clear
    exact ⟨congrArg _ ha, hr⟩

theorem callRecord_eq {c : DiskCall} (h : DiskStore.Rep m d) (hc : c.Ok) :
    d.callRecord c = c.record m ∧ ∀ r ∈ c.record m, r.Ok := by
  cases c with
  | set k v =>
    have hk := DiskStore.isEmpty_of_fieldOk hc.1
    have hv := DiskStore.isEmpty_of_fieldOk hc.2
    refine ⟨by simp [DiskStore.callRecord, DiskCall.record, hk, hv], fun r hr => ?_⟩
    rw [← Option.some.inj hr]
    exact hc
  | del k =>
    have hk := DiskStore.isEmpty_of_fieldOk hc
    refine ⟨by simp [DiskStore.callRecord, DiskCall.record, hk, h.exists? k], fun r hr => ?_⟩
    simp only [DiskCall.record] at hr
    split_ifs at hr
    · rw [← Option.some.inj hr]
      exact hc
    · cases hr
  | get k => exact ⟨rfl, fun r hr => by cases hr⟩
  | «exists» k => exact ⟨rfl, fun r hr => by cases hr⟩
  | size => exact ⟨rfl, fun r hr => by cases hr⟩
  | clear => exact ⟨rfl, fun r hr => by cases hr⟩

/-- The file is complete records and part of one more, and the records make `m`. -/
def Stored (bytes : Bytes) (m : Map) : Prop :=
  ∃ rs t, bytes = encodeAll rs ++ t ∧ (∀ r ∈ rs, r.Ok) ∧ IsCut t ∧ applyAll ∅ rs = m

theorem kill_eq {x : DiskSession} (h : DiskStore.Rep m d) (hx : x.Ok) :
    x.kill d.callRecord = x.kill (DiskCall.record m)
      ∧ ∀ r ∈ (x.kill (DiskCall.record m)).records, r.Ok := by
  unfold DiskSession.kill
  rcases hk : x.killed with _ | ⟨c, n⟩
  · exact ⟨rfl, fun r hr => by cases hr⟩
  · obtain ⟨he, hok⟩ := callRecord_eq h (hx.2 _ hk)
    refine ⟨by simp only [Option.bind_some, he], fun r hr => ?_⟩
    obtain ⟨n', hn⟩ := Kill.records_eq hr
    obtain ⟨r', hr', he'⟩ := Option.map_eq_some_iff.1 hn
    obtain ⟨rfl, -⟩ := Prod.mk.inj he'
    exact hok _ hr'

theorem serve_stored {x : DiskSession} (h : Stored bytes m) (hx : x.Ok) :
    (x.serve bytes).1 = (x.serveMap m).1 ∧ Stored (x.serve bytes).2 (x.serveMap m).2 := by
  obtain ⟨rs, t, rfl, hok, hcut, rfl⟩ := h
  obtain ⟨ha, hr⟩ := runOut_sim (P := DiskCall.Ok) (R := fun d m => DiskStore.Rep m d)
    (fun _ _ _ => call_rep) x.calls (DiskStore.ofFile_rep hok hcut x.order) hx.1
  refine ⟨ha, ?_⟩
  obtain ⟨hkill, hkok⟩ := kill_eq hr hx
  simp only [DiskSession.serve, DiskSession.serveMap]
  rw [hkill]
  set k := x.kill (DiskCall.record (runOut DiskCall.onMap (applyAll ∅ rs) x.calls).2)
  obtain ⟨t', hb, hcut', -⟩ := k.bytes_eq
  obtain ⟨rs', hb', hok', hm'⟩ := hr.records
  refine ⟨rs' ++ k.records, t', ?_, fun r hr' => ?_, hcut', ?_⟩
  · rw [hb, hb', encodeAll_append, List.append_assoc]
  · rcases List.mem_append.1 hr' with hr' | hr'
    · exact hok' r hr'
    · exact hkok r hr'
  · rw [applyAll_append, hm']

/-- Over any number of sessions, each ended cleanly or by a kill, every call is answered as a map
answers it. -/
theorem disk_refines_map (xs : List DiskSession) (hok : ∀ x ∈ xs, x.Ok) :
    (runOut DiskSession.serve [] xs).1 = (runOut DiskSession.serveMap ∅ xs).1 := by
  have h : Stored [] ∅ := ⟨[], [], rfl, by simp, isCut_nil, rfl⟩
  exact (runOut_sim (P := DiskSession.Ok) (R := Stored) (fun _ _ _ => serve_stored) xs h hok).1

/-- A session killed seven bytes into a record, and one that finds what was acknowledged. -/
theorem disk_refines_map_two :
    (runOut DiskSession.serve [] [⟨⟨id, .refl⟩, [.set [97] [49], .set [97] [50], .del [98]],
        some (.set [98] [51], 7)⟩, ⟨⟨id, .refl⟩, [.get [97], .exists [98], .size], none⟩]).1
      = [[.done true, .done true, .done false], [.value (some [50]), .done false, .count 1]] :=
  (disk_refines_map [⟨⟨id, .refl⟩, [.set [97] [49], .set [97] [50], .del [98]],
    some (.set [98] [51], 7)⟩, ⟨⟨id, .refl⟩, [.get [97], .exists [98], .size], none⟩]
    (by decide)).trans (by decide)

end Redon
