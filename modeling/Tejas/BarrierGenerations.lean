import Tejas.BarrierTable
import Tejas.LabelledRuns
import Mathlib.Data.List.Nodup
import Mathlib.Data.List.Perm.Subperm
import Mathlib.Data.List.Range

/-!
# The generations of a barrier and its threads

The objects at the addresses from `A` on are the generations in their order. The objects
in which a thread is registered are the first ones of them, and those at which it has
arrived are the first ones of these. A re-initialisation replaces the first object at
which nobody has arrived, which does no harm if nobody is registered there either.
-/

namespace Tejas.BarrierTable
open JavaHashtable LabelledRuns

/-! ### Logs of threads and objects -/

variable {log : List (ℕ × ℕ)} {t o n k w : ℕ}

def objectsOf (log : List (ℕ × ℕ)) (t : ℕ) : List ℕ :=
  (log.filter (fun e => e.1 = t)).map Prod.snd

def threadsOf (log : List (ℕ × ℕ)) (o : ℕ) : List ℕ :=
  (log.filter (fun e => e.2 = o)).map Prod.fst

theorem mem_objectsOf : o ∈ objectsOf log t ↔ (t, o) ∈ log := by
  simp [objectsOf]

theorem mem_threadsOf : t ∈ threadsOf log o ↔ (t, o) ∈ log := by
  simp [threadsOf]

theorem objectsOf_append (t' : ℕ) : objectsOf (log ++ [(t', o)]) t =
    objectsOf log t ++ if t' = t then [o] else [] := by
  by_cases h : t' = t <;> simp [objectsOf, h]

theorem threadsOf_append (o' : ℕ) : threadsOf (log ++ [(t, o')]) o =
    threadsOf log o ++ if o' = o then [t] else [] := by
  by_cases h : o' = o <;> simp [threadsOf, h]

/-- A log in which no thread meets an object twice has no entry twice. -/
theorem nodup_log (h : ∀ t, (objectsOf log t).Nodup) : log.Nodup := by
  induction log with
  | nil => exact List.nodup_nil
  | cons e rest ih =>
    have hrest : ∀ t, (objectsOf rest t).Nodup := by
      intro t
      refine List.Nodup.sublist ?_ (h t)
      exact List.Sublist.map _ ((List.sublist_cons_self e rest).filter _)
    refine List.nodup_cons.mpr ⟨?_, ih hrest⟩
    intro hmem
    have hfirst := h e.1
    have hcons : objectsOf (e :: rest) e.1 = e.2 :: objectsOf rest e.1 := by simp [objectsOf]
    rw [hcons, List.nodup_cons] at hfirst
    exact hfirst.1 (mem_objectsOf.mpr hmem)

theorem nodup_threadsOf (h : log.Nodup) (o : ℕ) : (threadsOf log o).Nodup := by
  refine List.Nodup.map_on ?_ (h.filter _)
  intro e he e' he' heq
  have ho : e.2 = o := by simpa using (List.mem_filter.mp he).2
  have ho' : e'.2 = o := by simpa using (List.mem_filter.mp he').2
  exact Prod.ext heq (ho.trans ho'.symm)

/-- As many different threads as there are. -/
theorem all_of_length {l : List ℕ} (hnodup : l.Nodup) (hlt : ∀ t ∈ l, t < n)
    (hlength : l.length = n) (ht : t < n) : t ∈ l := by
  have hsub : l.Subperm (List.range n) :=
    List.subperm_of_subset hnodup (fun t h => List.mem_range.mpr (hlt t h))
  have hperm := hsub.perm_of_length_le (by rw [List.length_range, hlength])
  exact hperm.mem_iff.mpr (List.mem_range.mpr ht)

namespace Barriers

variable {isOther : ℤ → Bool} {A : ℤ} {s s' : Barriers} {objects : List ℕ} {thread : ℕ}
  {bar : Barrier}

/-- The objects of the barrier in the order of their addresses, and what they hold. -/
structure Generations (isOther : ℤ → Bool) (A : ℤ) (n : ℕ) (s : Barriers)
    (objects : List ℕ) : Prop where
  nonempty : objects ≠ []
  nodup : objects.Nodup
  old : ∀ o ∈ objects, o < s.allocated
  present : ∀ (k : ℕ) o, objects[k]? = some o → ∃ bar, s.barrierList.get (A + k) = some bar ∧
    bar.id = o ∧ bar.numThreads = n ∧
    bar.numThreadsArrived = (threadsOf s.arrivals o).length ∧
    bar.blockedThreads = threadsOf s.registered o
  own : ∀ k : ℕ, k < objects.length → isOther (A + k) = false
  free : ∀ a, isOther a = false → (∀ k : ℕ, k < objects.length → a ≠ A + k) →
    s.barrierList.get a = none
  threads : ∀ e ∈ s.registered, e.1 < n
  registered : ∀ t, objectsOf s.registered t <+: objects
  arrivals : ∀ t, objectsOf s.arrivals t <+: objectsOf s.registered t
  pipelines : ∀ t, s.pipelines t =
    ((List.range (objectsOf s.registered t).length).drop (objectsOf s.arrivals t).length).map
      (fun k : ℕ => A + (k : ℤ))
  crossed : ∀ o ∈ s.crossed, ∀ t < n, (t, o) ∈ s.arrivals

/-- The number of waits of a thread. -/
def waits (s : Barriers) (t : ℕ) : ℕ := (objectsOf s.registered t).length

namespace Generations

theorem registered_nodup (h : Generations isOther A n s objects) : s.registered.Nodup :=
  nodup_log (fun t => List.Nodup.sublist (h.registered t).sublist h.nodup)

theorem waits_le (h : Generations isOther A n s objects) (t : ℕ) : s.waits t ≤ objects.length :=
  (h.registered t).length_le

/-- The objects of a thread are those before the number of its waits. -/
theorem registered_iff (h : Generations isOther A n s objects) (hk : objects[k]? = some o) :
    (t, o) ∈ s.registered ↔ k < s.waits t := by
  have htake : objectsOf s.registered t = objects.take (s.waits t) :=
    List.prefix_iff_eq_take.mp (h.registered t)
  have hlt : k < objects.length := (List.getElem?_eq_some_iff.mp hk).1
  rw [← mem_objectsOf, htake, List.mem_take_iff_getElem]
  constructor
  · rintro ⟨j, hj, hget⟩
    have hj' : objects[j]? = some o := List.getElem?_eq_some_iff.mpr ⟨by omega, hget⟩
    have heq := (List.getElem?_inj hlt h.nodup).mp (hk.trans hj'.symm)
    omega
  · intro hwaits
    obtain ⟨_, hget⟩ := List.getElem?_eq_some_iff.mp hk
    exact ⟨k, by omega, hget⟩

theorem containsThread_iff (h : Generations isOther A n s objects) (hk : objects[k]? = some o)
    (hbar : bar.blockedThreads = threadsOf s.registered o) :
    bar.containsThread t = true ↔ k < s.waits t := by
  rw [← h.registered_iff hk, ← mem_threadsOf, ← hbar, Barrier.containsThread]
  simp

/-- All threads are registered in a full object. -/
theorem lt_waits_of_full (h : Generations isOther A n s objects) (hk : objects[k]? = some o)
    (hbar : bar.blockedThreads = threadsOf s.registered o) (hthreads : bar.numThreads = n)
    (hfull : bar.blockedThreadSize = bar.numThreads) (ht : t < n) : k < s.waits t := by
  rw [← h.registered_iff hk, ← mem_threadsOf]
  refine all_of_length (nodup_threadsOf h.registered_nodup o) ?_ ?_ ht
  · intro t' ht'
    exact h.threads _ (mem_threadsOf.mp ht')
  · rw [← hbar]
    exact hfull.trans hthreads

theorem mem_objects (h : Generations isOther A n s objects) (hmem : (t, o) ∈ s.registered) :
    o ∈ objects :=
  (h.registered t).subset (mem_objectsOf.mpr hmem)

theorem mem_registered (h : Generations isOther A n s objects) (hmem : (t, o) ∈ s.arrivals) :
    (t, o) ∈ s.registered :=
  mem_objectsOf.mp ((h.arrivals t).subset (mem_objectsOf.mpr hmem))

/-- Nobody has met an object that is not one of the barrier. -/
theorem threadsOf_eq_nil (h : Generations isOther A n s objects) (ho : o ∉ objects) :
    threadsOf s.registered o = [] ∧ threadsOf s.arrivals o = [] := by
  constructor
  · rw [List.eq_nil_iff_forall_not_mem]
    exact fun t ht => ho (h.mem_objects (mem_threadsOf.mp ht))
  · rw [List.eq_nil_iff_forall_not_mem]
    exact fun t ht => ho (h.mem_objects (h.mem_registered (mem_threadsOf.mp ht)))

theorem allocated_not_mem (h : Generations isOther A n s objects) : s.allocated ∉ objects :=
  fun hmem => Nat.lt_irrefl _ (h.old _ hmem)

/-- One object has been changed, or has come in another's place. -/
theorem present_put (h : Generations isOther A n s objects) {objects' : List ℕ}
    {registered arrivals : List (ℕ × ℕ)}
    (hbar : bar.id = o ∧ bar.numThreads = n ∧
      bar.numThreadsArrived = (threadsOf arrivals o).length ∧
      bar.blockedThreads = threadsOf registered o)
    (hkept : ∀ j o', objects'[j]? = some o' → j = k ∧ o' = o ∨
      j ≠ k ∧ objects[j]? = some o' ∧ threadsOf arrivals o' = threadsOf s.arrivals o' ∧
        threadsOf registered o' = threadsOf s.registered o')
    (j : ℕ) (o' : ℕ) (hj : objects'[j]? = some o') :
    ∃ bar', (s.barrierList.put (A + (k : ℤ)) bar).get (A + (j : ℤ)) = some bar' ∧
      bar'.id = o' ∧ bar'.numThreads = n ∧
      bar'.numThreadsArrived = (threadsOf arrivals o').length ∧
      bar'.blockedThreads = threadsOf registered o' := by
  rcases hkept j o' hj with ⟨rfl, rfl⟩ | ⟨hne, hold, harrivals, hregistered⟩
  · exact ⟨bar, Hashtable.get_put_same _ _ _, hbar⟩
  · obtain ⟨bar', hget, hfields⟩ := h.present j o' hold
    rw [harrivals, hregistered]
    refine ⟨bar', ?_, hfields⟩
    rw [Hashtable.get_put_of_ne _ (by omega)]
    exact hget

theorem getElem?_ne (h : Generations isOther A n s objects) {j o' : ℕ}
    (hk : objects[k]? = some o) (hj : objects[j]? = some o') : j = k ∧ o' = o ∨
      j ≠ k ∧ o' ≠ o := by
  have hlt : k < objects.length := (List.getElem?_eq_some_iff.mp hk).1
  by_cases heq : j = k
  · subst heq
    exact .inl ⟨rfl, Option.some.inj (hj.symm.trans hk)⟩
  · refine .inr ⟨heq, ?_⟩
    rintro rfl
    exact heq ((List.getElem?_inj hlt h.nodup).mp (hk.trans hj.symm)).symm

/-- A new object behind the others. -/
theorem create (h : Generations isOther A n s objects)
    (hown : isOther (A + (objects.length : ℤ)) = false) (address : ℤ) :
    Generations isOther A n (s.create address n (A + (objects.length : ℤ)))
      (objects ++ [s.allocated]) := by
  have hnone := h.threadsOf_eq_nil h.allocated_not_mem
  refine ⟨by simp, ?_, ?_, ?_, ?_, ?_, h.threads, ?_, h.arrivals, h.pipelines, h.crossed⟩
  · rw [List.nodup_append]
    refine ⟨h.nodup, List.nodup_singleton _, ?_⟩
    intro o ho o' ho' heq
    rw [List.mem_singleton.mp ho'] at heq
    exact h.allocated_not_mem (heq ▸ ho)
  · intro o ho
    rcases List.mem_append.mp ho with ho | ho
    · exact Nat.lt_succ_of_lt (h.old o ho)
    · rw [List.mem_singleton.mp ho]
      exact Nat.lt_succ_self _
  · refine h.present_put (o := s.allocated) ⟨rfl, rfl, ?_, hnone.1.symm⟩ ?_
    · rw [Barriers.create, hnone.2]
      rfl
    · intro j o' hj
      rcases Nat.lt_or_ge j objects.length with hlt | hge
      · rw [List.getElem?_append_left hlt] at hj
        exact .inr ⟨by omega, hj, rfl, rfl⟩
      · rw [List.getElem?_append_right hge, List.getElem?_singleton] at hj
        obtain ⟨hzero, heq⟩ := Option.ite_none_right_eq_some.mp hj
        exact .inl ⟨by omega, (Option.some.inj heq).symm⟩
  · intro k hk
    rw [List.length_append, List.length_singleton] at hk
    rcases Nat.lt_succ_iff_lt_or_eq.mp hk with hk | rfl
    · exact h.own k hk
    · exact hown
  · intro a ha hne
    rw [List.length_append, List.length_singleton] at hne
    rw [Barriers.create, Hashtable.get_put_of_ne _ (hne _ (Nat.lt_succ_self _))]
    exact h.free a ha (fun k hk => hne k (Nat.lt_succ_of_lt hk))
  · exact fun t => (h.registered t).trans (List.prefix_append _ _)

/-- A new object in the place of one in which nobody is registered. -/
theorem replace (h : Generations isOther A n s objects) (hk : objects[k]? = some o)
    (hnobody : threadsOf s.registered o = []) (address : ℤ) :
    Generations isOther A n
      ({ s with barrierList := s.barrierList.remove (A + (k : ℤ)) }.create address n
        (A + (k : ℤ))) (objects.set k s.allocated) := by
  have hlt : k < objects.length := (List.getElem?_eq_some_iff.mp hk).1
  have hnone := h.threadsOf_eq_nil h.allocated_not_mem
  have hput : ∀ bar a, ((s.barrierList.remove (A + (k : ℤ))).put (A + (k : ℤ)) bar).get a =
      (s.barrierList.put (A + (k : ℤ)) bar).get a := by
    intro bar a
    by_cases ha : a = A + (k : ℤ)
    · rw [ha, Hashtable.get_put_same, Hashtable.get_put_same]
    · rw [Hashtable.get_put_of_ne _ ha, Hashtable.get_put_of_ne _ ha,
        Hashtable.get_remove_of_ne _ ha]
  refine ⟨?_, h.nodup.set h.allocated_not_mem, ?_, ?_, ?_, ?_, h.threads, ?_, h.arrivals,
    h.pipelines, h.crossed⟩
  · intro heq
    have hlength := congrArg List.length heq
    rw [List.length_set, List.length_nil] at hlength
    omega
  · intro o' ho'
    rcases List.mem_or_eq_of_mem_set ho' with ho' | rfl
    · exact Nat.lt_succ_of_lt (h.old o' ho')
    · exact Nat.lt_succ_self _
  · intro j o' hj
    rw [Barriers.create, hput]
    refine h.present_put (o := s.allocated) ⟨rfl, rfl, ?_, hnone.1.symm⟩ ?_ j o' hj
    · rw [hnone.2]
      rfl
    · intro j o' hj
      by_cases hjk : j = k
      · subst hjk
        rw [List.getElem?_set_self hlt] at hj
        exact .inl ⟨rfl, (Option.some.inj hj).symm⟩
      · rw [List.getElem?_set_ne (fun heq => hjk heq.symm)] at hj
        exact .inr ⟨hjk, hj, rfl, rfl⟩
  · intro j hj
    rw [List.length_set] at hj
    exact h.own j hj
  · intro a ha hne
    rw [List.length_set] at hne
    rw [Barriers.create, hput, Hashtable.get_put_of_ne _ (hne k hlt)]
    exact h.free a ha hne
  · intro t
    -- the waits of the thread end before the replaced object
    have hle : s.waits t ≤ k := by
      by_contra hnot
      have hmem := (h.registered_iff hk).mpr (Nat.lt_of_not_le hnot)
      rw [← mem_threadsOf, hnobody] at hmem
      exact absurd hmem List.not_mem_nil
    rw [List.prefix_iff_eq_take]
    have htake := List.prefix_iff_eq_take.mp (h.registered t)
    have hset := List.take_set_of_le (a := s.allocated) (l := objects) hle
    exact htake.trans hset.symm

/-- The table changes at the address of another barrier. -/
theorem other (h : Generations isOther A n s objects) {table : Hashtable ℤ Barrier} {a : ℤ}
    (ha : isOther a = true) (hsame : ∀ b, b ≠ a → table.get b = s.barrierList.get b) :
    Generations isOther A n { s with barrierList := table } objects := by
  refine { h with present := ?_, free := ?_ }
  · intro k o hk
    have hlt : k < objects.length := (List.getElem?_eq_some_iff.mp hk).1
    have hne : A + (k : ℤ) ≠ a := by
      rintro rfl
      rw [h.own k hlt] at ha
      cases ha
    rw [hsame _ hne]
    exact h.present k o hk
  · intro b hb hne
    have hba : b ≠ a := by
      rintro rfl
      rw [hb] at ha
      cases ha
    rw [hsame b hba]
    exact h.free b hb hne

/-- The next wait of a thread is registered in the object after those it has met. -/
theorem enter (h : Generations isOther A n s objects) (hthread : thread < n)
    (hk : objects[s.waits thread]? = some o)
    (hget : s.barrierList.get (A + (s.waits thread : ℤ)) = some bar) :
    Generations isOther A n
      { s.enter thread bar (A + (s.waits thread : ℤ)) with
        pipelines := Function.update s.pipelines thread
          (s.pipelines thread ++ [A + (s.waits thread : ℤ)]) } objects := by
  obtain ⟨bar', hget', hid, hthreads, harrived, hblocked⟩ := h.present _ o hk
  cases hget.symm.trans hget'
  subst hid
  have hlt : s.waits thread < objects.length := (List.getElem?_eq_some_iff.mp hk).1
  have hobjects : ∀ t, objectsOf (s.registered ++ [(thread, bar.id)]) t =
      objectsOf s.registered t ++ if thread = t then [bar.id] else [] :=
    fun t => objectsOf_append thread
  refine ⟨h.nonempty, h.nodup, h.old, ?_, h.own, ?_, ?_, ?_, ?_, ?_, h.crossed⟩
  · refine h.present_put (o := bar.id) ⟨rfl, hthreads, harrived, ?_⟩ ?_
    · rw [Barriers.enter, threadsOf_append, if_pos rfl, ← hblocked]
      rfl
    · intro j o' hj
      rcases h.getElem?_ne hk hj with heq | ⟨hne, hne'⟩
      · exact .inl heq
      · refine .inr ⟨hne, hj, rfl, ?_⟩
        rw [Barriers.enter, threadsOf_append, if_neg hne'.symm, List.append_nil]
  · intro a ha hne
    rw [Barriers.enter, Hashtable.get_put_of_ne _ (hne _ hlt)]
    exact h.free a ha hne
  · intro e he
    rcases List.mem_append.mp he with he | he
    · exact h.threads e he
    · rw [List.mem_singleton.mp he]
      exact hthread
  · intro t
    dsimp only [Barriers.enter]
    rw [hobjects]
    by_cases ht : thread = t
    · subst ht
      have htake := List.prefix_iff_eq_take.mp (h.registered thread)
      have hsucc : objects.take (s.waits thread + 1) =
          objects.take (s.waits thread) ++ [bar.id] := by
        rw [List.take_add_one, hk]
        rfl
      rw [if_pos rfl, htake]
      exact ⟨_, (congrArg (· ++ objects.drop (s.waits thread + 1)) hsucc.symm).trans
        (List.take_append_drop _ _)⟩
    · rw [if_neg ht, List.append_nil]
      exact h.registered t
  · intro t
    dsimp only [Barriers.enter]
    rw [hobjects]
    exact (h.arrivals t).trans (List.prefix_append _ _)
  · intro t
    dsimp only [Barriers.enter]
    rw [hobjects]
    by_cases ht : thread = t
    · subst ht
      have hle := (h.arrivals thread).length_le
      rw [Function.update_self, if_pos rfl, List.length_append, List.length_singleton,
        List.range_succ, List.drop_append_of_le_length (by rwa [List.length_range]),
        List.map_append, ← h.pipelines]
      rfl
    · rw [Function.update_of_ne (fun heq => ht heq.symm), if_neg ht, List.append_nil]
      exact h.pipelines t

/-- The next arrival of a thread is at the object of its next wait. -/
theorem arrive (h : Generations isOther A n s objects) (hstep : s.arrive thread = some s') :
    Generations isOther A n s' objects := by
  unfold Barriers.arrive at hstep
  split at hstep
  · cases hstep
  · rename_i address rest hpipeline
    have hle := (h.arrivals thread).length_le
    have hlist := h.pipelines thread
    rw [hpipeline] at hlist
    -- the sync instruction is that of the first wait without an arrival
    have hlt : (objectsOf s.arrivals thread).length < (objectsOf s.registered thread).length := by
      by_contra hnot
      rw [List.drop_eq_nil_of_le (by rw [List.length_range]; omega)] at hlist
      cases hlist
    rw [List.drop_eq_getElem_cons (by rwa [List.length_range]), List.getElem_range,
      List.map_cons] at hlist
    obtain ⟨haddress, hrest⟩ := List.cons.inj hlist
    generalize hcount : (objectsOf s.arrivals thread).length = k at hlt hrest haddress
    obtain ⟨o, hk⟩ : ∃ o, objects[k]? = some o :=
      ⟨_, List.getElem?_eq_getElem (hlt.trans_le (h.waits_le thread))⟩
    obtain ⟨bar, hget, hid, hthreads, harrived, hblocked⟩ := h.present k o hk
    subst hid
    have hmem : (thread, bar.id) ∈ s.registered := (h.registered_iff hk).mpr hlt
    dsimp only at hstep
    split at hstep
    · cases hstep
    · rw [haddress, hget] at hstep
      cases hstep
      have hobjects : ∀ t, objectsOf (s.arrivals ++ [(thread, bar.id)]) t =
          objectsOf s.arrivals t ++ if thread = t then [bar.id] else [] :=
        fun t => objectsOf_append thread
      have harrivals : ∀ t, objectsOf (s.arrivals ++ [(thread, bar.id)]) t <+:
          objectsOf s.registered t := by
        intro t
        rw [hobjects]
        by_cases ht : thread = t
        · subst ht
          have hprefix := h.registered thread
          have htake := List.prefix_iff_eq_take.mp (h.arrivals thread)
          have hnext : (objectsOf s.registered thread)[k]? = some bar.id := by
            have heq := congrArg (fun l => l[k]?) (List.prefix_iff_eq_take.mp hprefix)
            exact heq.trans ((List.getElem?_take_of_lt hlt).trans hk)
          rw [hcount] at htake
          have hsucc : (objectsOf s.registered thread).take (k + 1) =
              (objectsOf s.registered thread).take k ++ [bar.id] := by
            rw [List.take_add_one, hnext]
            rfl
          rw [if_pos rfl, htake, ← hsucc]
          exact List.take_prefix _ _
        · rw [if_neg ht, List.append_nil]
          exact h.arrivals t
      refine ⟨h.nonempty, h.nodup, h.old, ?_, h.own, ?_, h.threads, h.registered, harrivals,
        ?_, ?_⟩
      · refine h.present_put (o := bar.id) ⟨rfl, hthreads, ?_, hblocked⟩ ?_
        · rw [threadsOf_append, if_pos rfl, List.length_append, ← harrived]
          rfl
        · intro j o' hj
          rcases h.getElem?_ne hk hj with heq | ⟨hne, hne'⟩
          · exact .inl heq
          · refine .inr ⟨hne, hj, ?_, rfl⟩
            rw [threadsOf_append, if_neg hne'.symm, List.append_nil]
      · intro a ha hne
        dsimp only
        rw [Hashtable.get_put_of_ne _ (hne k (hlt.trans_le (h.waits_le thread)))]
        exact h.free a ha hne
      · intro t
        dsimp only
        rw [hobjects]
        by_cases ht : thread = t
        · subst ht
          rw [Function.update_self, if_pos rfl, List.length_append, hcount]
          exact hrest
        · rw [Function.update_of_ne (fun heq => ht heq.symm), if_neg ht, List.append_nil]
          exact h.pipelines t
      · intro o ho t ht
        dsimp only at ho
        split at ho
        · rename_i hcross
          rcases List.mem_append.mp ho with ho | ho
          · exact List.mem_append_left _ (h.crossed o ho t ht)
          · rw [List.mem_singleton.mp ho]
            have hnodup : (s.arrivals ++ [(thread, bar.id)]).Nodup := nodup_log (fun t =>
              List.Nodup.sublist ((harrivals t).sublist.trans (h.registered t).sublist) h.nodup)
            refine mem_threadsOf.mp (all_of_length (nodup_threadsOf hnodup bar.id) ?_ ?_ ht)
            · intro t' ht'
              have hin := (harrivals t').subset (mem_objectsOf.mpr (mem_threadsOf.mp ht'))
              exact h.threads _ (mem_objectsOf.mp hin)
            · have hall : bar.numThreads = bar.numThreadsArrived + 1 := of_decide_eq_true hcross
              rw [threadsOf_append, if_pos rfl, List.length_append, ← harrived, ← hthreads, hall]
              rfl
        · exact List.mem_append_left _ (h.crossed o ho t ht)

/-! ### The loops -/

/-- The objects have different places in the table. -/
theorem length_le (h : Generations isOther A n s objects) :
    objects.length ≤ s.barrierList.entries.length := by
  have hnodup : ((List.range objects.length).map (fun k : ℕ => A + (k : ℤ))).Nodup := by
    refine List.Nodup.map ?_ List.nodup_range
    intro j k heq
    dsimp only at heq
    omega
  have hsub : (List.range objects.length).map (fun k : ℕ => A + (k : ℤ)) ⊆
      s.barrierList.entries.map Prod.fst := by
    intro a ha
    obtain ⟨k, hk, rfl⟩ := List.mem_map.mp ha
    obtain ⟨bar, hget, -⟩ :=
      h.present k _ (List.getElem?_eq_getElem (List.mem_range.mp hk))
    exact List.mem_map_of_mem (Hashtable.mem_of_get_eq_some hget)
  have hle := (List.subperm_of_subset hnodup hsub).length_le
  rwa [List.length_map, List.length_range, List.length_map] at hle

theorem lt_rounds (h : Generations isOther A n s objects) : objects.length - k < s.rounds := by
  have hle := h.length_le
  rw [rounds]
  omega

theorem get_end (h : Generations isOther A n s objects)
    (hown : isOther (A + (objects.length : ℤ)) = false) :
    s.barrierList.get (A + (objects.length : ℤ)) = none := by
  apply h.free _ hown
  intro k hk
  omega

theorem get_next (h : Generations isOther A n s objects)
    (hk : k + 1 < objects.length) :
    ∃ o bar, objects[k + 1]? = some o ∧ s.barrierList.get (A + (k : ℤ) + 1) = some bar := by
  obtain ⟨bar, hget, -⟩ := h.present (k + 1) _ (List.getElem?_eq_getElem hk)
  refine ⟨_, bar, List.getElem?_eq_getElem hk, ?_⟩
  rw [Int.add_assoc]
  exact hget

/-- Behind the last object a copy of it is put. -/
theorem barrierCopy_eq (hget : s.barrierList.get A = some bar)
    (hnone : s.barrierList.get (A + 1) = none) :
    s.barrierCopy A = some (s.create (A + 1) bar.numThreads (A + 1), A + 1) := by
  have hlast : s.lastFrom A s.rounds = some A := by
    rw [rounds, lastFrom, hnone]
    rfl
  rw [barrierCopy, hlast, Option.bind_some, hget, Option.map_some]

/-- The first loop stops at an object that is not full, and not past the next wait of the
thread. -/
theorem skipFull_spec (h : Generations isOther A n s objects) (hthread : thread < n)
    (hown : isOther (A + (objects.length : ℤ)) = false) (hk : objects[k]? = some o)
    (hget : s.barrierList.get (A + (k : ℤ)) = some bar) (hle : k ≤ s.waits thread) {fuel : ℕ}
    (hfuel : objects.length - k < fuel) :
    ∃ s' objects' bar', ∃ j : ℕ,
      s.skipFull bar (A + (k : ℤ)) fuel = some (s', bar', A + (j : ℤ)) ∧
      Generations isOther A n s' objects' ∧ s'.registered = s.registered ∧
      j ≤ s.waits thread ∧ j < objects'.length ∧
      s'.barrierList.get (A + (j : ℤ)) = some bar' ∧
      (objects'.length = s.waits thread → isOther (A + (objects'.length : ℤ)) = false) := by
  induction fuel generalizing k o bar with
  | zero => exact absurd hfuel (Nat.not_lt_zero _)
  | succ fuel ih =>
    obtain ⟨bar', hget', hid, hthreads, harrived, hblocked⟩ := h.present k o hk
    cases hget.symm.trans hget'
    have hlt : k < objects.length := (List.getElem?_eq_some_iff.mp hk).1
    rw [skipFull]
    by_cases hfull : bar.blockedThreadSize = bar.numThreads
    · have hbefore := h.lt_waits_of_full hk hblocked hthreads hfull hthread
      rw [if_pos hfull]
      rcases Nat.lt_or_ge (k + 1) objects.length with hnext | hnext
      · obtain ⟨o', bar', hk', hget'⟩ := h.get_next hnext
        rw [hget']
        have hcast : A + (k : ℤ) + 1 = A + ((k + 1 : ℕ) : ℤ) := by push_cast; omega
        rw [hcast] at hget' ⊢
        exact ih hk' hget' hbefore (by omega)
      · have hlast : A + (k : ℤ) + 1 = A + (objects.length : ℤ) := by omega
        have hnone : s.barrierList.get (A + (k : ℤ) + 1) = none := by
          rw [hlast]
          exact h.get_end hown
        obtain ⟨fuel, rfl⟩ := Nat.exists_eq_succ_of_ne_zero (by omega : fuel ≠ 0)
        rw [hnone]
        dsimp only
        rw [barrierCopy_eq hget hnone, Option.bind_some, hthreads, hlast]
        have hnew :
            (s.create (A + (objects.length : ℤ)) n (A + (objects.length : ℤ))).barrierList.get
                (A + (objects.length : ℤ)) =
              some (.new s.allocated (A + (objects.length : ℤ)) n) :=
          Hashtable.get_put_same _ _ _
        rw [hnew, Option.bind_some, skipFull, if_neg]
        · refine ⟨_, _, _, objects.length, rfl, h.create hown _, rfl, by omega, by simp, hnew, ?_⟩
          intro hlength
          have hwaits := h.waits_le thread
          rw [List.length_append, List.length_singleton] at hlength
          omega
        · dsimp only [Barrier.blockedThreadSize, Barrier.new, List.length_nil]
          omega
    · rw [if_neg hfull]
      exact ⟨s, objects, bar, k, rfl, h, rfl, hle, hlt, hget, fun _ => hown⟩

/-- The second loop stops at the object of the next wait. -/
theorem skipEntered_spec (h : Generations isOther A n s objects)
    (hown : objects.length = s.waits thread → isOther (A + (objects.length : ℤ)) = false)
    (hk : objects[k]? = some o) (hget : s.barrierList.get (A + (k : ℤ)) = some bar)
    (hle : k ≤ s.waits thread) {fuel : ℕ} (hfuel : objects.length - k < fuel) :
    ∃ s' objects' bar', s.skipEntered thread bar (A + (k : ℤ)) fuel =
        some (s', bar', A + (s.waits thread : ℤ)) ∧
      Generations isOther A n s' objects' ∧ s'.registered = s.registered ∧
      s.waits thread < objects'.length ∧
      s'.barrierList.get (A + (s.waits thread : ℤ)) = some bar' := by
  induction fuel generalizing k o bar with
  | zero => exact absurd hfuel (Nat.not_lt_zero _)
  | succ fuel ih =>
    obtain ⟨bar', hget', hid, hthreads, harrived, hblocked⟩ := h.present k o hk
    cases hget.symm.trans hget'
    have hlt : k < objects.length := (List.getElem?_eq_some_iff.mp hk).1
    have hcontains := h.containsThread_iff (t := thread) hk hblocked
    rw [skipEntered]
    by_cases hbefore : k < s.waits thread
    · rw [if_pos (hcontains.mpr hbefore)]
      rcases Nat.lt_or_ge (k + 1) objects.length with hnext | hnext
      · obtain ⟨o', bar', hk', hget'⟩ := h.get_next hnext
        rw [hget']
        have hcast : A + (k : ℤ) + 1 = A + ((k + 1 : ℕ) : ℤ) := by push_cast; omega
        rw [hcast] at hget' ⊢
        exact ih hk' hget' hbefore (by omega)
      · have hwaits := h.waits_le thread
        have hlast : A + (k : ℤ) + 1 = A + (objects.length : ℤ) := by omega
        have hend : (objects.length : ℤ) = (s.waits thread : ℤ) := by omega
        have hown' := hown (by omega)
        rw [hlast, h.get_end hown', hthreads]
        refine ⟨_, _, .new s.allocated (A + (objects.length : ℤ)) n, ?_,
          h.create hown' (A + (objects.length : ℤ)), rfl, ?_, ?_⟩
        · dsimp only
          rw [← hend]
        · rw [List.length_append, List.length_singleton]
          omega
        · rw [← hend]
          exact Hashtable.get_put_same _ _ _
    · have heq : k = s.waits thread := by omega
      subst heq
      rw [if_neg (fun hin => hbefore (hcontains.mp hin))]
      exact ⟨s, objects, bar, rfl, h, rfl, hlt, hget⟩

/-- A wait registers the thread in the object of its next generation. -/
theorem update_spec (h : Generations isOther A n s objects) (hthread : thread < n)
    (hown : isOther (A + (objects.length : ℤ)) = false) :
    ∃ s' objects' bar', s.update A thread =
        some (s'.enter thread bar' (A + (s.waits thread : ℤ)), some (A + (s.waits thread : ℤ))) ∧
      Generations isOther A n s' objects' ∧ s'.registered = s.registered ∧
      s.waits thread < objects'.length ∧
      s'.barrierList.get (A + (s.waits thread : ℤ)) = some bar' := by
  have hpos : 0 < objects.length := List.length_pos_of_ne_nil h.nonempty
  have hfirst : objects[0]? = some objects[0] := List.getElem?_eq_getElem hpos
  obtain ⟨bar, hget, -⟩ := h.present 0 _ hfirst
  have hzero : A = A + ((0 : ℕ) : ℤ) := by omega
  obtain ⟨s₁, objects₁, bar₁, j, hskip, h₁, hsame₁, hj, hjlt, hget₁, hown₁⟩ :=
    h.skipFull_spec hthread hown hfirst hget (Nat.zero_le _) h.lt_rounds
  have hwaits : s₁.waits thread = s.waits thread := by rw [waits, waits, hsame₁]
  obtain ⟨s₂, objects₂, bar₂, hentered, h₂, hsame₂, hlt₂, hget₂⟩ :=
    h₁.skipEntered_spec (hwaits.symm ▸ hown₁)
      (List.getElem?_eq_getElem hjlt) hget₁ (hwaits.symm ▸ hj) h₁.lt_rounds
  rw [hwaits] at hentered hlt₂ hget₂
  rw [← hzero] at hget hskip
  refine ⟨s₂, objects₂, bar₂, ?_, h₂, hsame₂.trans hsame₁, hlt₂, hget₂⟩
  rw [update, hget]
  dsimp only
  rw [hskip, Option.bind_some]
  dsimp only
  rw [hentered, Option.map_some]

end Generations

/-- The objects from `A` on and the place behind them are not at the address of another
barrier. -/
def Reserved (isOther : ℤ → Bool) (A : ℤ) (s : Barriers) : Prop :=
  ∀ k : ℕ, (∀ j : ℕ, j < k → (s.barrierList.get (A + (j : ℤ))).isSome) →
    isOther (A + (k : ℤ)) = false

/-- In the first object at which no thread has arrived no thread is registered. -/
def InitClear (A : ℤ) (s : Barriers) : Prop :=
  ∀ (k : ℕ) (bar : Barrier), s.barrierList.get (A + (k : ℤ)) = some bar →
    (∀ j : ℕ, j < k →
      ∃ bar', s.barrierList.get (A + (j : ℤ)) = some bar' ∧ bar'.numThreadsArrived ≠ 0) →
    bar.numThreadsArrived = 0 → bar.blockedThreads = []

namespace Generations

theorem reserved (h : Generations isOther A n s objects) (hreserved : s.Reserved isOther A) :
    isOther (A + (objects.length : ℤ)) = false := by
  apply hreserved
  intro j hj
  obtain ⟨bar, hget, -⟩ := h.present j _ (List.getElem?_eq_getElem hj)
  rw [hget]
  rfl

/-- A re-initialisation puts its object in the place of one without threads or behind the
others. -/
theorem addScan_spec (h : Generations isOther A n s objects)
    (hown : isOther (A + (objects.length : ℤ)) = false) (hclear : s.InitClear A)
    (hk : k ≤ objects.length)
    (hbefore : ∀ j : ℕ, j < k →
      ∃ bar, s.barrierList.get (A + (j : ℤ)) = some bar ∧ bar.numThreadsArrived ≠ 0)
    {fuel : ℕ} (hfuel : objects.length - k < fuel) :
    ∃ s' objects', s.addScan A n (A + (k : ℤ)) fuel = some s' ∧
      Generations isOther A n s' objects' := by
  induction fuel generalizing k with
  | zero => exact absurd hfuel (Nat.not_lt_zero _)
  | succ fuel ih =>
    rw [addScan]
    rcases Nat.lt_or_eq_of_le hk with hlt | rfl
    · have hobject := List.getElem?_eq_getElem hlt
      obtain ⟨bar, hget, hid, hthreads, harrived, hblocked⟩ := h.present k _ hobject
      rw [hget]
      dsimp only
      by_cases hzero : bar.numThreadsArrived = 0
      · rw [if_pos hzero]
        have hnobody := hblocked.symm.trans (hclear k bar hget hbefore hzero)
        exact ⟨_, _, rfl, h.replace hobject hnobody A⟩
      · rw [if_neg hzero]
        have hcast : A + (k : ℤ) + 1 = A + ((k + 1 : ℕ) : ℤ) := by push_cast; omega
        rw [hcast]
        apply ih hlt _ (by omega)
        intro j hj
        rcases Nat.lt_succ_iff_lt_or_eq.mp hj with hj | rfl
        · exact hbefore j hj
        · exact ⟨bar, hget, hzero⟩
    · rw [h.get_end hown]
      exact ⟨_, _, rfl, h.create hown A⟩

theorem barrierListAdd_spec (h : Generations isOther A n s objects)
    (hown : isOther (A + (objects.length : ℤ)) = false) (hclear : s.InitClear A) :
    ∃ s' objects', s.barrierListAdd A n = some s' ∧ Generations isOther A n s' objects' := by
  have hzero : A = A + ((0 : ℕ) : ℤ) := by omega
  obtain ⟨s', objects', hscan, h'⟩ := h.addScan_spec hown hclear (Nat.zero_le _)
    (fun j hj => absurd hj (Nat.not_lt_zero j))
    h.lt_rounds
  rw [← hzero] at hscan
  exact ⟨s', objects', hscan, h'⟩

end Generations

/-! ### Runs -/

/-- The condition on a packet or an arrival: the addresses are reserved, and at a
re-initialisation the object that is replaced has no thread. -/
def Untouched (isOther : ℤ → Bool) (A : ℤ) (s : Barriers) (action : Action) : Prop :=
  s.Reserved isOther A ∧ (action = .init → s.InitClear A)

theorem generations_step (h : ∃ objects, Generations isOther A n s objects) {action : Action}
    (hstep : Guarded (StepOf (next isOther A n)) (Untouched isOther A) s action s') :
    ∃ objects, Generations isOther A n s' objects := by
  obtain ⟨objects, h⟩ := h
  obtain ⟨⟨hreserved, hclear⟩, hstep⟩ := hstep
  have hown := h.reserved hreserved
  cases action with
  | wait thread =>
    obtain ⟨hthread, hstep⟩ := Option.ite_none_right_eq_some.mp hstep
    obtain ⟨u, objects', bar, hupdate, h', hsame, hlt, hget⟩ := h.update_spec hthread hown
    rw [hupdate, Option.bind_some, resumeSleep] at hstep
    obtain ⟨-, hstep⟩ := Option.ite_none_left_eq_some.mp hstep
    have hwaits : u.waits thread = s.waits thread := by rw [waits, waits, hsame]
    rw [← hwaits] at hlt hget hstep
    cases hstep
    exact ⟨objects', h'.enter hthread (List.getElem?_eq_getElem hlt) hget⟩
  | init =>
    obtain ⟨u, objects', hadd, h'⟩ := h.barrierListAdd_spec hown (hclear rfl)
    cases hadd.symm.trans hstep
    exact ⟨objects', h'⟩
  | arrive thread => exact ⟨objects, h.arrive hstep⟩
  | other address barrier =>
    obtain ⟨hother, hstep⟩ := Option.ite_none_right_eq_some.mp hstep
    cases hstep
    refine ⟨objects, h.other hother ?_⟩
    intro b hb
    cases barrier with
    | some bar => exact Hashtable.get_put_of_ne _ hb bar
    | none => exact Hashtable.get_remove_of_ne _ hb

theorem generations_initial (isOther : ℤ → Bool) (A : ℤ) (n : ℕ) (hown : isOther A = false) :
    Generations isOther A n (initial A n) [0] := by
  refine ⟨by simp, by simp, ?_, ?_, ?_, ?_, ?_, ?_, ?_, ?_, ?_⟩
  · intro o ho
    rw [List.mem_singleton.mp ho]
    exact Nat.one_pos
  · intro k o hk
    obtain ⟨rfl, rfl⟩ : k = 0 ∧ 0 = o := by simpa [List.getElem?_singleton] using hk
    refine ⟨.new 0 A n, ?_, rfl, rfl, rfl, rfl⟩
    rw [Int.natCast_zero, Int.add_zero]
    exact Hashtable.get_put_same _ _ _
  · intro k hk
    obtain rfl : k = 0 := Nat.lt_one_iff.mp hk
    rw [Int.natCast_zero, Int.add_zero]
    exact hown
  · intro a ha hne
    have hA : a ≠ A := by simpa using hne 0 Nat.one_pos
    exact (Hashtable.get_put_of_ne _ hA _).trans (Hashtable.get_empty _)
  · exact fun e he => absurd he List.not_mem_nil
  · exact fun t => List.nil_prefix
  · exact fun t => List.nil_prefix
  · exact fun t => rfl
  · exact fun o ho => absurd ho List.not_mem_nil

/-- What the generations of a barrier at `A` for `n` threads are for. -/
structure InGenerations (isOther : ℤ → Bool) (A : ℤ) (n : ℕ) (s : Barriers) : Prop where
  /-- Waits are registered in one object if and only if they have the same number. -/
  generation : ∀ t t' k k' o o' : ℕ, (objectsOf s.registered t)[k]? = some o →
    (objectsOf s.registered t')[k']? = some o' → (o = o' ↔ k = k')
  once : s.registered.Nodup
  /-- The arrivals of a thread are those of its first waits, the others are on their way. -/
  arrived : ∀ t, objectsOf s.arrivals t =
    (objectsOf s.registered t).take ((objectsOf s.registered t).length - (s.pipelines t).length)
  /-- An object holds the threads registered in it and counts the arrivals at it. -/
  counts : ∀ a bar, isOther a = false → s.barrierList.get a = some bar →
    bar.blockedThreads = threadsOf s.registered bar.id ∧
      bar.numThreadsArrived = (threadsOf s.arrivals bar.id).length
  crossed : ∀ o ∈ s.crossed, ∀ t < n, (t, o) ∈ s.arrivals
  /-- The next wait of a thread is registered. -/
  progress : s.Reserved isOther A → ∀ t < n, ∃ found, s.update A t = some found ∧
    ∃ o, found.1.registered = s.registered ++ [(t, o)]

theorem Generations.inGenerations (h : Generations isOther A n s objects) :
    s.InGenerations isOther A n := by
  have hget : ∀ t k o : ℕ, (objectsOf s.registered t)[k]? = some o → objects[k]? = some o := by
    intro t k o hk
    obtain ⟨hlt, -⟩ := List.getElem?_eq_some_iff.mp hk
    obtain ⟨rest, hrest⟩ := h.registered t
    rw [← hrest, List.getElem?_append_left hlt]
    exact hk
  refine ⟨?_, h.registered_nodup, ?_, ?_, h.crossed, ?_⟩
  · intro t t' k k' o o' hk hk'
    rcases h.getElem?_ne (hget t k o hk) (hget t' k' o' hk') with ⟨hsame, rfl⟩ | ⟨hne, hne'⟩
    · exact iff_of_true rfl hsame.symm
    · exact iff_of_false (fun heq => hne' heq.symm) (fun heq => hne heq.symm)
  · intro t
    have hle := (h.arrivals t).length_le
    have hlength : (objectsOf s.registered t).length - (s.pipelines t).length =
        (objectsOf s.arrivals t).length := by
      rw [h.pipelines, List.length_map, List.length_drop, List.length_range]
      omega
    rw [hlength]
    exact List.prefix_iff_eq_take.mp (h.arrivals t)
  · intro a bar ha hbar
    have hplace : ∃ k : ℕ, k < objects.length ∧ a = A + (k : ℤ) := by
      by_contra hnot
      have hnone := h.free a ha (fun k hk heq => hnot ⟨k, hk, heq⟩)
      cases hbar.symm.trans hnone
    obtain ⟨k, hk, rfl⟩ := hplace
    obtain ⟨bar', hbar', hid, -, harrived, hblocked⟩ :=
      h.present k _ (List.getElem?_eq_getElem hk)
    cases hbar.symm.trans hbar'
    rw [hid]
    exact ⟨hblocked, harrived⟩
  · intro hreserved t ht
    obtain ⟨u, objects', bar, hupdate, -, hsame, -⟩ := h.update_spec ht (h.reserved hreserved)
    refine ⟨_, hupdate, bar.id, ?_⟩
    rw [← hsame]
    rfl

/-- The generations are kept apart as long as a re-initialisation replaces no object in
which a thread is registered. -/
theorem inGenerations_of_run (isOther : ℤ → Bool) (A : ℤ) (n : ℕ) (hown : isOther A = false)
    {actions : List Action}
    (run : Run (Guarded (StepOf (next isOther A n)) (Untouched isOther A)) (initial A n)
      actions s) :
    s.InGenerations isOther A n := by
  have h : ∃ objects, Generations isOther A n s objects :=
    run.invariant ⟨_, generations_initial isOther A n hown⟩
      (fun _ _ _ h hstep => generations_step h hstep)
  obtain ⟨objects, h⟩ := h
  exact h.inGenerations

theorem initClear_of_entries
    (h : ∀ e ∈ s.barrierList.entries, e.2.numThreadsArrived = 0 → e.2.blockedThreads = []) :
    s.InitClear A :=
  fun _ _ hget _ => h _ (Hashtable.mem_of_get_eq_some hget)

/-- Two threads meet at a barrier, which is initialised again before they meet a second
time. -/
theorem inGenerations_two :
    ∃ s, Run (Guarded (StepOf (next (fun _ => false) 2 2)) (Untouched (fun _ => false) 2))
        (initial 2 2) [.wait 0, .wait 1, .arrive 0, .arrive 1, .init, .wait 1, .wait 0] s ∧
      s.InGenerations (fun _ => false) 2 2 := by
  have hexec : (exec (fun (s : Barriers) (a : Action) =>
      if a = .init → ∀ e ∈ s.barrierList.entries,
        e.2.numThreadsArrived = 0 → e.2.blockedThreads = []
      then next (fun _ => false) 2 2 s a else none) (initial 2 2)
      [.wait 0, .wait 1, .arrive 0, .arrive 1, .init, .wait 1, .wait 0]).isSome = true := by
    decide
  obtain ⟨s, hs⟩ := Option.isSome_iff_exists.mp hexec
  have hrun := (guarded_run_of_exec hs).guarded_mono (D := Untouched (fun _ => false) 2)
    (fun _ u a _ h => ⟨fun _ _ => rfl, fun ha => initClear_of_entries (h ha)⟩)
  exact ⟨s, hrun, inGenerations_of_run _ 2 2 rfl hrun⟩

/-- A thread initialises the barrier again before another one has waited the first time.
The second wait of the one and the first wait of the other are registered in one object. -/
theorem waits_of_two_generations_meet :
    ¬ ∀ (isOther : ℤ → Bool) (A : ℤ) (n : ℕ), isOther A = false →
      ∀ (actions : List Action) (s : Barriers),
        Run (Guarded (StepOf (next isOther A n)) (fun u _ => u.Reserved isOther A))
          (initial A n) actions s → s.InGenerations isOther A n := by
  intro hclaim
  have hexec : (exec (next (fun _ => false) 2 2) (initial 2 2)
      [.wait 0, .init, .wait 0, .wait 1]).any (fun s =>
        (objectsOf s.registered 0)[1]? = some 1 ∧ (objectsOf s.registered 1)[0]? = some 1) =
      true := by
    decide
  obtain ⟨s, hs, hobjects⟩ := (Option.any_eq_true _ _).mp hexec
  obtain ⟨hzero, hone⟩ := of_decide_eq_true hobjects
  have hrun : Run (Guarded (StepOf (next (fun _ => false) 2 2))
      (fun u _ => u.Reserved (fun _ => false) 2)) (initial 2 2) _ s :=
    (run_of_exec hs).mono (fun _ _ _ hstep => ⟨fun _ _ => rfl, hstep⟩)
  have hgenerations := hclaim (fun _ => false) 2 2 rfl _ s hrun
  exact absurd ((hgenerations.generation 0 1 1 0 1 1 hzero hone).mp rfl) (by decide)

end Barriers

end Tejas.BarrierTable
