import EasyKeyDB.EventLoop

/-!
# What a sweep does

`check_idle_connections` first collects the descriptors of the idle connections
and then takes leave of them one after the other, in whatever order they were
found. Each of them is told to the callback once, and is taken from the epoll
instance once, by a `delete_event` that finds it there (`Deregisters`).
-/

namespace EasyKeyDB

/-- For how many whole seconds a connection has been idle. It is negative if the
connection has been seen after `now`. -/
def Connection.idle (c : Connection) (now : UInt64) : Int :=
  ((now.toNat : Int) - c.client.lastSeen.toNat) / 1000000000

/-- One `delete_event` for each descriptor, at which it is registered, and its
`close`. -/
def Deregisters : IONotifier → List Int → IONotifier → Prop
  | notifier, [], notifier' => notifier' = notifier
  | notifier, fd :: fds, notifier' => notifier.Watches fd ∧
      Deregisters ((notifier.deleteEvent (Event.new fd)).2.closed fd) fds notifier'

namespace Server

structure Sweeps (s : Server) (now : UInt64) (s' : Server) : Prop where
  /-- No difference of times is negative. -/
  noWrap : ∀ fd c, s.entry fd = some c → c.client.lastSeen.toNat ≤ now.toNat
  /-- The entries that stay are as they were. -/
  entries : ∀ fd c, s'.entry fd = some c ↔ s.entry fd = some c ∧ c.idle now < 300
  removed : ∃ gone : List Connection,
    (∀ c, c ∈ gone ↔ (∃ fd, s.entry fd = some c) ∧ 300 ≤ c.idle now) ∧
    (gone.map Connection.number).Nodup ∧
    (gone.map fun c => c.client.fileDescriptor).Nodup ∧
    s'.callbacks = s.callbacks ++ (if s.clientDisconnectedCallback
      then gone.map fun c => Callback.disconnected c.number else []) ∧
    Deregisters s.ioNotifier (gone.map fun c => c.client.fileDescriptor) s'.ioNotifier

section

variable {s t : Server} {now : UInt64} {gone : List Connection}

theorem iterations_leaveAll (s : Server) (gone : List Connection) :
    (s.leaveAll gone).iterations = s.iterations := by
  induction gone generalizing s with
  | nil => rfl
  | cons c gone ih => exact ih (s.leave c.client.fileDescriptor c)

theorem entry_leaveAll (s : Server) (gone : List Connection) (fd : Int) :
    (s.leaveAll gone).entry fd =
      if fd ∈ gone.map fun c => c.client.fileDescriptor then none else s.entry fd := by
  induction gone generalizing s with
  | nil => rfl
  | cons c gone ih =>
      rw [leaveAll_cons, ih, entry_leave, List.map_cons]
      by_cases hsame : c.client.fileDescriptor = fd
      · subst hsame
        rw [if_pos rfl, if_pos List.mem_cons_self, ite_self]
      · rw [if_neg hsame]
        exact if_congr (by simp [Ne.symm hsame]) rfl rfl

theorem callbacks_leaveAll (s : Server) (gone : List Connection) :
    (s.leaveAll gone).callbacks = s.callbacks ++ (if s.clientDisconnectedCallback
      then gone.map fun c => Callback.disconnected c.number else []) := by
  induction gone generalizing s with
  | nil =>
      rw [List.map_nil, ite_self, List.append_nil]
      rfl
  | cons c gone ih =>
      rw [leaveAll_cons, ih]
      show Lifecycle.record s.clientDisconnectedCallback s.callbacks (.disconnected c.number) ++
        (if s.clientDisconnectedCallback then _ else _) = _
      unfold Lifecycle.record
      cases s.clientDisconnectedCallback with
      | true => exact List.append_assoc _ _ _
      | false => rfl

theorem deregisters_leaveAll (h : s.Table)
    (hnodup : (gone.map fun c => c.client.fileDescriptor).Nodup)
    (hthere : ∀ c ∈ gone, s.entry c.client.fileDescriptor = some c) :
    Deregisters s.ioNotifier (gone.map fun c => c.client.fileDescriptor)
      (s.leaveAll gone).ioNotifier := by
  induction gone generalizing s with
  | nil => rfl
  | cons c gone ih =>
      have hc := hthere c List.mem_cons_self
      obtain ⟨hfd, hnodup⟩ := List.nodup_cons.mp hnodup
      refine ⟨(h.sockets _ c hc).2.2, ?_⟩
      apply ih (h.leave hc) hnodup
      intro c' hc'
      have hother : c.client.fileDescriptor ≠ c'.client.fileDescriptor := by
        intro hsame
        exact hfd (List.mem_map.mpr ⟨c', hc', hsame.symm⟩)
      rw [entry_leave, if_neg hother]
      exact hthere c' (List.mem_cons_of_mem c hc')

theorem idleSeconds_iff {c : Connection} (hseen : c.client.lastSeen.toNat ≤ now.toNat) :
    300 ≤ idleSeconds now c.client.lastSeen ↔ 300 ≤ c.idle now := by
  have hseconds : (idleSeconds now c.client.lastSeen).toNat =
      (now.toNat - c.client.lastSeen.toNat) / 1000000000 := by
    rw [idleSeconds, UInt64.toNat_div,
      UInt64.toNat_sub_of_le _ _ (UInt64.le_iff_toNat_le.mpr hseen)]
    rfl
  rw [UInt64.le_iff_toNat_le, hseconds]
  show 300 ≤ _ ↔ _
  unfold Connection.idle
  omega

theorem mem_toRemove_iff {fd : Int} {c : Connection} (hc : s.entry fd = some c)
    (hseen : c.client.lastSeen.toNat ≤ now.toNat) : fd ∈ s.toRemove now ↔ 300 ≤ c.idle now := by
  have hfind : s.currentConnections.find? fd = some c := hc
  have hkey : fd ∈ s.currentConnections.keys := UnorderedMap.mem_keys.mpr ⟨c, hc⟩
  rw [toRemove, List.mem_filter, hfind, ← idleSeconds_iff hseen, decide_eq_true_iff]
  exact and_iff_right hkey

theorem iterations_checkIdleConnections (h : s.Table)
    (hok : s.checkIdleConnections now = .ok t) : t.iterations = s.iterations := by
  obtain ⟨gone, -, -, -, hloop⟩ := checkIdleConnections_leaveAll h now
  rw [hloop] at hok
  obtain rfl := Except.ok.inj hok
  exact iterations_leaveAll s gone

theorem Table.nodup_numbers (h : s.Table)
    (hnodup : (gone.map fun c => c.client.fileDescriptor).Nodup)
    (hthere : ∀ c ∈ gone, s.entry c.client.fileDescriptor = some c) :
    (gone.map Connection.number).Nodup := by
  apply List.Nodup.map_on _ hnodup.of_map
  intro c hc c' hc' hnumber
  have hentry := hthere c hc
  have hsame := h.distinct _ _ c c' hentry (hthere c' hc') hnumber
  rw [hsame, hthere c' hc'] at hentry
  exact (Option.some.inj hentry).symm

/-- **A sweep** takes leave of the idle connections and of no others. -/
theorem checkIdleConnections_sweeps (h : s.Table)
    (hseen : ∀ fd c, s.entry fd = some c → c.client.lastSeen.toNat ≤ now.toNat)
    (hok : s.checkIdleConnections now = .ok t) : s.Sweeps now t := by
  obtain ⟨gone, hmap, hgone, -, hloop⟩ := checkIdleConnections_leaveAll h now
  rw [hloop] at hok
  obtain rfl := Except.ok.inj hok
  have hdistinct := (s.toRemove_spec now).1
  rw [← hmap] at hdistinct
  refine ⟨hseen, ?_, gone, ?_, h.nodup_numbers hdistinct hgone, hdistinct,
    callbacks_leaveAll s gone, deregisters_leaveAll h hdistinct hgone⟩
  · intro fd c
    rw [entry_leaveAll, hmap]
    by_cases hmem : fd ∈ s.toRemove now
    · rw [if_pos hmem]
      constructor
      · intro hc
        cases hc
      · rintro ⟨hc, hidle⟩
        exact absurd ((mem_toRemove_iff hc (hseen fd c hc)).mp hmem) (not_le.mpr hidle)
    · -- What has not been collected has been seen less than 300 seconds ago.
      rw [if_neg hmem, iff_self_and]
      intro hc
      exact not_le.mp fun hidle => hmem ((mem_toRemove_iff hc (hseen fd c hc)).mpr hidle)
  · intro c
    constructor
    · intro hc
      have hentry := hgone c hc
      have hmem : c.client.fileDescriptor ∈ s.toRemove now :=
        hmap ▸ List.mem_map_of_mem hc
      exact ⟨⟨_, hentry⟩, (mem_toRemove_iff hentry (hseen _ c hentry)).mp hmem⟩
    · rintro ⟨⟨fd, hc⟩, hidle⟩
      have hmem := (mem_toRemove_iff hc (hseen fd c hc)).mpr hidle
      rw [← hmap] at hmem
      obtain ⟨c', hc', rfl⟩ := List.mem_map.mp hmem
      obtain rfl := Option.some.inj ((hgone c' hc').symm.trans hc)
      exact hc'

end

end Server

end EasyKeyDB
