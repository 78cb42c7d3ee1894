import Zap.Data.History
import Zap.Laws.Lines
import Zap.Laws.SharedSyncer

/-!
# A log that goroutines write together

Goroutines log through cores with the JSON encoder to one combined syncer. Each encodes its entries
on its own and gives the syncer a line at a time, so what the mutex of the syncer keeps together is a
line. In the end every sink has the same file: cut at its newlines, it gives the lines of all
goroutines, those of each in the order in which it has logged them (`concurrent_lines`).

The sinks are different from one another and do not fail, and the configuration is one under which an
entry is one line (`EncoderConfig.OneLine`).
-/

set_option autoImplicit false

namespace Zap.Zapcore

open Data

/-- The calls of `ioCore.Write` on its destination, where no call fails: the line, and a `Sync` after
an entry above the error level. If the encoder panics there are none, and whoever has called the logger
recovers. -/
def ioCalls [Host] (cfg : EncoderConfig) (l : Logged) : List SyncerCall :=
  match encodeLogged cfg l with
  | none => []
  | some line => if l.entry.level > Level.error then [.write line, .sync] else [.write line]

/-- What a device takes of the argument of its `Write`: as much as it says. -/
def DeviceEvent.taken [Devices] (d : Nat) (before : List DeviceEvent) : DeviceEvent → Bytes
  | .write d' p => if d' = d then p.take (Devices.write before d p).1.toNat else []
  | _ => []

/-- What a device has stored. -/
def stored [Devices] (d : Nat) (tr : List DeviceEvent) : Bytes := history (DeviceEvent.taken d) tr

section

variable [Host] {cfg : EncoderConfig}

/-- A configuration under which an entry is one line. -/
structure EncoderConfig.OneLine (cfg : EncoderConfig) : Prop where
  lineEnding : cfg.effectiveLineEnding = EncoderConfig.defaultLineEnding
  time : ∀ e, cfg.encodeTime = some e → e ∈ builtinTimeEncoders
  reflected : ∀ v bs, cfg.reflectedEncoder v = .ok bs → Printable (JsonEncoder.trimNewline bs)

theorem EncoderConfig.OneLine.isLine (h : cfg.OneLine) {l : Logged} {line : Bytes}
    (henc : encodeLogged cfg l = some line) : IsLine line := by
  obtain ⟨t, ht, hT⟩ := encodeLogged_text (textClass_printable h.time h.reflected) henc
  refine ⟨t, ht.trans (congrArg (t ++ ·) h.lineEnding), fun hmem => absurd (hT _ hmem) (by decide)⟩

theorem records_ioCalls (cfg : EncoderConfig) (l : Logged) :
    (ioCalls cfg l).filterMap SyncerCall.record = (encodeLogged cfg l).toList := by
  unfold ioCalls
  cases encodeLogged cfg l with
  | none => rfl
  | some line =>
    simp only
    split <;> rfl

theorem records_session (cfg : EncoderConfig) (ls : List Logged) :
    (ls.flatMap (ioCalls cfg)).filterMap SyncerCall.record = ls.filterMap (encodeLogged cfg) := by
  induction ls with
  | nil => rfl
  | cons l ls ih =>
    rw [List.flatMap_cons, List.filterMap_append, ih, records_ioCalls]
    cases henc : encodeLogged cfg l <;> simp [henc]

end

/-- A device that takes all it is given stores it. -/
theorem stored_eq [Devices] {d : Nat} (hall : ∀ tr p, (Devices.write tr d p).1 = p.length)
    (tr : List DeviceEvent) : stored d tr = (received d tr).flatten := by
  induction tr using List.reverseRecOn with
  | nil => rfl
  | append_singleton tr e ih =>
    have hone : e.taken d tr = (received d [e]).flatten := by
      cases e with
      | write d' p =>
        by_cases hd : d' = d
        · subst hd
          rw [received, List.filterMap_cons_some (writtenTo_self d' p)]
          simp [DeviceEvent.taken, hall]
        · rw [received, List.filterMap_cons_none (writtenTo_of_ne hd p), DeviceEvent.taken,
            if_neg hd]
          rfl
      | sync _ => rfl
      | newSink _ _ => rfl
      | close _ => rfl
    rw [stored, history_concat, received_append, List.flatten_append, ← ih, ← hone]
    rfl

/-- The lines of calls that were made, by whom. -/
def linesOf (done : List (LockThreads.Made SyncerCall SyncerAnswer)) : List (Nat × Bytes) :=
  done.filterMap fun d => d.call.record.map fun line => (d.thread, line)

theorem linesOf_map (done : List (LockThreads.Made SyncerCall SyncerAnswer)) :
    (linesOf done).map Prod.snd = done.filterMap fun d => d.call.record := by
  rw [linesOf, List.map_filterMap]
  refine List.filterMap_congr fun d _ => ?_
  cases d.call.record <;> rfl

theorem linesOf_mine (done : List (LockThreads.Made SyncerCall SyncerAnswer)) (i : Nat) :
    ((linesOf done).filter (·.1 == i)).map Prod.snd =
      ((LockThreads.mine i done).map LockThreads.Made.call).filterMap SyncerCall.record := by
  have hfilter : (linesOf done).filter (·.1 == i) = linesOf (LockThreads.mine i done) := by
    rw [linesOf, linesOf, LockThreads.mine, List.filter_filterMap, List.filterMap_filter]
    refine List.filterMap_congr fun d _ => ?_
    cases d.call.record with
    | none => simp
    | some line =>
      by_cases h : d.thread = i <;> simp [Option.filter, h]
  rw [hfilter, linesOf_map, List.filterMap_map]
  rfl

section

variable [Host] [Devices] {cfg : EncoderConfig} {m : Nat} {ws : SharedSyncer}
  {logs : List (List Logged)} {done : List (LockThreads.Made SyncerCall SyncerAnswer)} {t : Bench}
  {st : LockThreads Bench DeviceOp DeviceOp.Res (List SyncerAnswer)}

/-- The lines of a goroutine, when all have returned. -/
theorem serial_lines
    (h : st.Serial Bench.exec m ws.call
      (fun i => (logs.map fun ls => ls.flatMap (ioCalls cfg)).getD i []) ⟨[], []⟩ done t)
    (hlen : st.threads.length = logs.length) (hret : st.Returned) (i : Nat) :
    ((LockThreads.mine i done).map LockThreads.Made.call).filterMap SyncerCall.record =
      (logs.getD i []).filterMap (encodeLogged cfg) := by
  by_cases hi : i < logs.length
  · obtain ⟨hcalls, -⟩ := h.complete hret (List.getElem?_eq_getElem (hlen ▸ hi))
    rw [hcalls, List.getD_eq_getElem?_getD, List.getD_eq_getElem?_getD, List.getElem?_map,
      List.getElem?_eq_getElem hi]
    exact records_session cfg logs[i]
  · have hnone : LockThreads.mine i done = [] := by
      refine List.filter_eq_nil_iff.mpr fun d hd heq => hi ?_
      rw [← beq_iff_eq.mp heq, ← hlen]
      exact h.known hd
    rw [hnone, List.getD_eq_getElem?_getD, List.getElem?_eq_none (Nat.le_of_not_lt hi)]
    rfl

end

/-- All goroutines have returned, the devices are all different, and none has failed. There is an order
of the lines of all goroutines, those of each in the order in which it has logged them and one for each
entry if nobody panics, such that every sink has stored these lines: cut at its newlines, its file gives
them back. -/
theorem concurrent_lines [Host] [Devices] [Sinks] {n : Nat} (writers : List (WiredSyncer n))
    (hne : writers ≠ []) (hnodup : (WiredSyncer.combineWriteSyncers writers).ws.leaves.Nodup)
    (hdevices : ∀ tr d (p : Bytes), Devices.write tr d p = ((p.length : Int), none))
    (cfg : EncoderConfig) (hcfg : cfg.OneLine) (logs : List (List Logged)) (is : List Nat)
    (st : LockThreads Bench DeviceOp DeviceOp.Res (List SyncerAnswer))
    (hrun : LockThreads.run Bench.exec is (sharing (.combineWriteSyncers writers)
      (logs.map fun ls => ls.flatMap (ioCalls cfg))) = some st) (hret : st.Returned) :
    ∃ lines : List (Nat × Bytes),
      (∀ i, (lines.filter (·.1 == i)).map Prod.snd =
        (logs.getD i []).filterMap (encodeLogged cfg)) ∧
      (∀ i, (∀ l ∈ logs.getD i [], l.Returns cfg) →
        (lines.filter (·.1 == i)).length = (logs.getD i []).length) ∧
      ∀ d ∈ (WiredSyncer.combineWriteSyncers writers).ws.leaves,
        splitLines [] (stored d st.state.trace) = lines.map Prod.snd := by
  obtain ⟨m, ws, done, t, hw, -, hlen, h⟩ := run_combined hne hrun
  rw [hw, SharedSyncer.leaves] at hnodup
  rw [hw, SharedSyncer.leaves, h.free (h.released hret)]
  have hmine := serial_lines h (hlen.trans (List.length_map _)) hret
  have hlines : ∀ line ∈ (linesOf done).map Prod.snd, IsLine line := by
    intro line hline
    obtain ⟨x, hx, rfl⟩ := List.mem_map.mp hline
    have hown : x ∈ (linesOf done).filter (·.1 == x.1) :=
      List.mem_filter.mpr ⟨hx, beq_self_eq_true x.1⟩
    have hlogged := List.mem_map_of_mem (f := Prod.snd) hown
    rw [linesOf_mine, hmine x.1] at hlogged
    obtain ⟨l, -, henc⟩ := List.mem_filterMap.mp hlogged
    exact hcfg.isLine henc
  have howned : ∀ i, ((linesOf done).filter (·.1 == i)).map Prod.snd =
      (logs.getD i []).filterMap (encodeLogged cfg) :=
    fun i => (linesOf_mine done i).trans (hmine i)
  refine ⟨linesOf done, howned, fun i hreturns => ?_, fun d hd => ?_⟩
  · rw [← List.length_map (f := Prod.snd), howned i]
    exact length_lines hreturns
  · rw [stored_eq fun tr p => congrArg Prod.fst (hdevices tr d p),
      received_sequential hnodup hd h.sequential, ← linesOf_map]
    exact splitLines_flatten hlines

/-- Two goroutines, one of which tries to forge a line. -/
theorem concurrent_lines_forged :
    let _ : Host := ⟨Location.utc⟩
    let cfg := newDevelopmentEncoderConfig
    ∃ is st, @LockThreads.run Bench DeviceOp DeviceOp.Res _ (@Bench.exec obedient) is
        (sharing (@WiredSyncer.combineWriteSyncers 0 noSinks pair)
          ([[forged], [forged, forged]].map fun ls => ls.flatMap (ioCalls cfg))) = some st ∧
      ∃ lines : List (Nat × Bytes), (lines.filter (·.1 == 1)).length = 2 ∧
        ∀ d ∈ (@WiredSyncer.combineWriteSyncers 0 noSinks pair).ws.leaves,
          splitLines [] (@stored obedient d st.state.trace) = lines.map Prod.snd := by
  intro _ cfg
  have hcfg : cfg.OneLine := ⟨rfl, fun e he => by cases he; simp [builtinTimeEncoders],
    fun v bs hbs => printable_defaultReflected v hbs⟩
  have h := disciplined_goroutines (([[forged], [forged, forged]].map fun ls =>
    ls.flatMap (ioCalls cfg)).map fun cs : List SyncerCall => cs.map fun c =>
      (@WiredSyncer.combineWriteSyncers 0 noSinks pair, c)) ⟨[], []⟩
  rw [List.map_map] at h
  obtain ⟨is, st, hrun, hret⟩ := h.completes (LockThreads.nesting_locking (@Bench.exec obedient))
  obtain ⟨lines, -, hcount, hfiles⟩ := @concurrent_lines _ obedient noSinks 0 pair
    (List.cons_ne_nil _ _) (by decide) (fun _ _ _ => rfl) cfg hcfg _ is st hrun hret
  have hforged : forged.Returns cfg := forged_returns
  exact ⟨is, st, hrun, lines, hcount 1 (List.forall_mem_cons.mpr
    ⟨hforged, List.forall_mem_singleton.mpr hforged⟩), hfiles⟩

end Zap.Zapcore
