import Redon.Main

/-!
# What the command line says

A command line is a list of items: the flag `--replica`, the other flags with their values, and
positional arguments (`Item`). `Describes` says which settings the items stand for, one setting at a
time and whatever the order of the items of different kinds. `main` accepts exactly the command
lines that describe settings, and makes the server with these (`main_ok_iff`).
-/

namespace Redon

open Lib

namespace Main

section Numbers

variable {read : Bytes → Option ℤ} {refused : ℤ → Bool} {text : Bytes} {n : ℕ} {lo hi : ℤ}

/-- The text is the number `n`, which is between `lo` and `hi`. -/
def Names (lo hi : ℤ) (text : Bytes) (n : ℕ) : Prop := Numeral text n ∧ lo ≤ n ∧ n ≤ hi

theorem parseNumber_eq_some {min max : ℤ} (hlo : 0 ≤ lo)
    (hr : ∀ v, min ≤ v ∧ v ≤ max ∧ refused v = false ↔ lo ≤ v ∧ v ≤ hi) :
    parseNumber (parseInt min max) refused text = some n ↔ Names lo hi text n := by
  have hwhole : parseNumber (parseInt min max) refused text = some n
      ↔ ∃ v, (parseInt min max text = some v ∧ consumed text = text.length) ∧ refused v = false
        ∧ v.toNat = n := by
    unfold parseNumber
    rcases parseInt min max text with _ | v
    · simp
    · simp [and_assoc]
  simp only [hwhole, parseInt_whole]
  constructor
  · rintro ⟨v, ⟨hnum, hmin, hmax⟩, hv, rfl⟩
    obtain ⟨hlov, hhiv⟩ := (hr v).1 ⟨hmin, hmax, hv⟩
    have hcast : (v.toNat : ℤ) = v := Int.toNat_of_nonneg (hlo.trans hlov)
    rw [Names, hcast]
    exact ⟨hnum, hlov, hhiv⟩
  · rintro ⟨hnum, hlon, hhin⟩
    obtain ⟨hmin, hmax, hv⟩ := (hr n).2 ⟨hlon, hhin⟩
    exact ⟨n, ⟨hnum, hmin, hmax⟩, hv, Int.toNat_natCast n⟩

theorem parsePort_eq_some : parsePort text = some n ↔ Names 1 65535 text n :=
  parseNumber_eq_some (by decide) fun v => by
    simp only [Bool.or_eq_false_iff, decide_eq_false_iff_not]
    omega

theorem parseWorkers_eq_some : parseWorkers text = some n ↔ Names 1 4096 text n :=
  parseNumber_eq_some (by decide) fun v => by
    simp only [Bool.or_eq_false_iff, decide_eq_false_iff_not]
    omega

theorem parseTimeout_eq_some : parseTimeout text = some n ↔ Names 0 86400 text n :=
  parseNumber_eq_some (by decide) fun v => by
    simp only [Bool.or_eq_false_iff, decide_eq_false_iff_not]
    omega

theorem parseCapacity_eq_some : parseCapacity text = some n ↔ Names 0 (2 ^ 63 - 1) text n :=
  parseNumber_eq_some (by decide) fun v => by
    simp only [decide_eq_false_iff_not]
    omega

end Numbers

/-! ## The flags -/

inductive Item where
  | replica
  | flag (f : Flag) (value : Bytes)
  | positional (text : Bytes)
  deriving DecidableEq, Repr

namespace Item

/-- The arguments that an item is written as. -/
def args : Item → List Bytes
  | replica => [ascii "--replica"]
  | flag f value => [f.name, value]
  | positional text => [text]

/-- The values given for a flag, in order. -/
def values (f : Flag) (items : List Item) : List Bytes :=
  items.filterMap fun
    | flag g value => if g = f then some value else none
    | _ => none

def positionals (items : List Item) : List Bytes :=
  items.filterMap fun
    | positional text => some text
    | _ => none

/-- A positional argument does not look like an option, and a metrics port is a port. -/
def Ok : Item → Prop
  | replica => True
  | flag .metricsPort value => ∃ n, Names 1 65535 value n
  | flag _ _ => True
  | positional text => ¬ ascii "--" <+: text

/-- The settings after an item. -/
def apply (o : Options) : Item → Options
  | replica => { o with isFollower := true }
  | flag f value => ((f.set o value).toOption).getD o
  | positional _ => o

end Item

open Item

theorem Flag.ofArg_eq_some {arg : Bytes} {f : Flag} : Flag.ofArg arg = some f ↔ arg = f.name := by
  constructor
  · intro h
    unfold Flag.ofArg at h
    split_ifs at h with h₁ h₂ h₃ h₄ h₅ <;> cases h <;> assumption
  · rintro rfl
    cases f <;> decide

theorem Flag.name_ne_replica (f : Flag) : f.name ≠ ascii "--replica" := by
  cases f <;> decide

theorem Flag.set_ok {f : Flag} {o o' : Options} {value : Bytes} :
    f.set o value = .ok o' ↔ (flag f value).Ok ∧ o' = (flag f value).apply o := by
  cases f with
  | metricsPort =>
    unfold Item.apply Item.Ok Flag.set
    simp only [← parsePort_eq_some]
    rcases parsePort value with _ | n
    · simp
    · simp [Except.toOption, eq_comm]
  | _ => simp [Item.apply, Item.Ok, Flag.set, Except.toOption, eq_comm]

theorem separate_replica (o : Options) (pos args : List Bytes) :
    separate o pos (ascii "--replica" :: args)
      = separate { o with isFollower := true } pos args := by
  rw [separate.eq_def]
  exact if_pos rfl

theorem separate_flag (f : Flag) (o : Options) (pos args : List Bytes) (value : Bytes) :
    separate o pos (f.name :: value :: args)
      = (f.set o value).bind fun o => separate o pos args := by
  rw [separate.eq_def]
  simp only [if_neg f.name_ne_replica, Flag.ofArg_eq_some.2 rfl]
  cases f.set o value <;> rfl

theorem separate_missing (f : Flag) (o : Options) (pos : List Bytes) :
    separate o pos [f.name] = .error f.missing := by
  rw [separate.eq_def]
  simp only [if_neg f.name_ne_replica, Flag.ofArg_eq_some.2 rfl]

theorem separate_unknown {arg : Bytes} (h : ascii "--" <+: arg) (hreplica : arg ≠ ascii "--replica")
    (hflag : Flag.ofArg arg = none) (o : Options) (pos args : List Bytes) :
    separate o pos (arg :: args)
      = .error (ascii "error: unknown option '" ++ arg ++ ascii "'\n") := by
  rw [separate.eq_def]
  simp only [if_neg hreplica, hflag]
  exact if_pos (List.isPrefixOf_iff_prefix.2 h)

theorem separate_positional {text : Bytes} (h : ¬ ascii "--" <+: text) (o : Options)
    (pos args : List Bytes) :
    separate o pos (text :: args) = separate o (pos ++ [text]) args := by
  have hreplica : text ≠ ascii "--replica" := by
    rintro rfl
    exact h (by decide)
  have hflag : Flag.ofArg text = none := by
    refine Option.eq_none_iff_forall_ne_some.2 fun f hf => h ?_
    rw [Flag.ofArg_eq_some.1 hf]
    cases f <;> decide
  rw [separate.eq_def]
  simp only [if_neg hreplica, hflag]
  rw [if_neg fun hp => h (List.isPrefixOf_iff_prefix.1 hp)]

theorem separate_items : ∀ {items : List Item} (o : Options) (pos : List Bytes),
    (∀ i ∈ items, i.Ok) →
    separate o pos (items.flatMap Item.args)
      = .ok (items.foldl Item.apply o, pos ++ positionals items)
  | [], o, pos, _ => by
    rw [positionals, List.filterMap_nil, List.append_nil]
    rfl
  | i :: items, o, pos, h => by
    have hrest := fun i' hi' => h i' (List.mem_cons_of_mem i hi')
    have hi := h i List.mem_cons_self
    rw [List.flatMap_cons]
    cases i with
    | replica => exact (separate_replica o pos _).trans (separate_items _ pos hrest)
    | flag f value =>
      refine (separate_flag f o pos _ value).trans ?_
      rw [Flag.set_ok.2 ⟨hi, rfl⟩]
      exact separate_items _ pos hrest
    | positional text =>
      refine (separate_positional hi o pos _).trans ((separate_items o _ hrest).trans ?_)
      rw [List.append_assoc]
      rfl

/-- The arguments are those of a list of items. -/
def Written (args : List Bytes) : Prop :=
  ∃ items : List Item, args = items.flatMap Item.args ∧ ∀ i ∈ items, i.Ok

theorem Written.cons {i : Item} {args : List Bytes} (hi : i.Ok) (h : Written args) :
    Written (i.args ++ args) := by
  obtain ⟨items, rfl, hok⟩ := h
  exact ⟨i :: items, rfl, List.forall_mem_cons.2 ⟨hi, hok⟩⟩

/-- What the loop takes is a list of items. -/
theorem written_of_separate : ∀ {args pos : List Bytes} {o : Options} {r : Options × List Bytes},
    separate o pos args = .ok r → Written args
  | [], _, _, _, _ => ⟨[], rfl, by simp⟩
  | arg :: args, pos, o, r, h => by
    by_cases hreplica : arg = ascii "--replica"
    · subst hreplica
      rw [separate_replica] at h
      exact .cons (i := .replica) trivial (written_of_separate h)
    rcases hf : Flag.ofArg arg with _ | f
    · by_cases hp : ascii "--" <+: arg
      · rw [separate_unknown hp hreplica hf] at h
        cases h
      · rw [separate_positional hp] at h
        exact .cons (i := .positional arg) hp (written_of_separate h)
    · obtain rfl := Flag.ofArg_eq_some.1 hf
      rcases args with _ | ⟨value, args⟩
      · rw [separate_missing] at h
        cases h
      · rw [separate_flag] at h
        rcases hset : f.set o value with e | o'
        · rw [hset] at h
          cases h
        · rw [hset] at h
          exact .cons (i := .flag f value) (Flag.set_ok.1 hset).1 (written_of_separate h)

/-! ## The settings -/

/-- The settings `o` with what the flags say. -/
def told (o : Options) (items : List Item) : Options :=
  { o with
    isFollower := o.isFollower || items.contains .replica
    followerAddrs := o.followerAddrs ++ values .follower items
    raftPeers := o.raftPeers ++ values .raft items
    shardAddrs := o.shardAddrs ++ values .shard items
    diskPath := (values .disk items).getLastD o.diskPath
    metricsPort := ((values .metricsPort items).filterMap parsePort).getLastD o.metricsPort }

theorem values_cons (f g : Flag) (value : Bytes) (items : List Item) :
    values f (flag g value :: items)
      = if g = f then value :: values f items else values f items := by
  split_ifs with h <;> simp [values, h]

theorem foldl_apply : ∀ (items : List Item) (o : Options),
    items.foldl Item.apply o = told o items
  | [], o => by simp [told, values]
  | i :: items, o => by
    rw [List.foldl_cons, foldl_apply]
    cases i with
    | replica => simp [told, values, Item.apply]
    | positional text => simp [told, values, Item.apply]
    | flag f value =>
      cases f with
      | metricsPort =>
        simp only [told, values_cons, Item.apply, Flag.set]
        rcases hp : parsePort value with _ | n
        · simp [hp, Except.toOption]
        · simp [hp, Except.toOption, List.getLastD_cons, -List.getLastD_eq_getLast?]
      | disk =>
        simp [told, values_cons, Item.apply, Flag.set, Except.toOption, List.getLastD_cons,
          -List.getLastD_eq_getLast?]
      | _ => simp [told, values_cons, Item.apply, Flag.set, Except.toOption]

/-- The number is the one a text names, or without a text the default. -/
def Given (lo hi : ℤ) (default : ℕ) (text : Option Bytes) (n : ℕ) : Prop :=
  match text with
  | none => n = default
  | some text => Names lo hi text n

theorem Given.ge {lo hi : ℤ} {d n : ℕ} {text : Option Bytes} (h : Given lo hi d text n)
    (hd : lo ≤ d) : lo ≤ n := by
  rcases text with _ | text
  · rwa [show n = d from h]
  · exact h.2.1

theorem Given.le {lo hi : ℤ} {d n : ℕ} {text : Option Bytes} (h : Given lo hi d text n)
    (hd : d ≤ hi) : n ≤ hi := by
  rcases text with _ | text
  · rwa [show n = d from h]
  · exact h.2.2

theorem setNumber_ok_iff {parse : Bytes → Option ℕ} {lo hi : ℤ}
    (hp : ∀ text n, parse text = some n ↔ Names lo hi text n) {d : ℕ} {s : ℕ → Options}
    {o o' : Options} (hd : s d = o) {pos : List Bytes} {i : ℕ} {what expected : Bytes} :
    setNumber pos i parse what expected s o = .ok o'
      ↔ ∃ n, Given lo hi d pos[i]? n ∧ s n = o' := by
  subst hd
  unfold setNumber
  rcases pos[i]? with _ | text
  · simp [Given]
  · simp only [Given, ← hp]
    rcases parse text with _ | n <;> simp

theorem getLastD_filterMap {values : List Bytes} (h : ∀ v ∈ values, ∃ n, Names 1 65535 v n)
    (n : ℕ) : (values.filterMap parsePort).getLastD 0 = n ↔ Given 1 65535 0 values.getLast? n := by
  rcases List.eq_nil_or_concat values with rfl | ⟨front, v, rfl⟩
  · simp [Given, eq_comm]
  · obtain ⟨m, hm⟩ := h v (by simp)
    have hv := parsePort_eq_some.2 hm
    simp [Given, ← parsePort_eq_some, hv]

/-- At most one of the roles is asked for, and a router has no data file. -/
theorem conflict_eq_none {c : ServerConfig} : c.conflict = none
    ↔ [c.isFollower, !c.followerAddrs.isEmpty, !c.raftPeers.isEmpty,
      !c.shardAddrs.isEmpty].count true ≤ 1 ∧ (c.diskPath = [] ∨ c.shardAddrs = []) := by
  unfold ServerConfig.conflict
  rw [← List.isEmpty_iff, ← List.isEmpty_iff]
  generalize c.isFollower = a, c.followerAddrs.isEmpty = b, c.raftPeers.isEmpty = d,
    c.shardAddrs.isEmpty = s, c.diskPath.isEmpty = p
  revert a b d s p
  decide

/-- The settings that the items stand for. `hw` is the number of hardware threads. -/
structure Describes (hw : ℕ) (items : List Item) (o : Options) : Prop where
  replica : o.isFollower = items.contains .replica
  followers : o.followerAddrs = values .follower items
  peers : o.raftPeers = values .raft items
  shards : o.shardAddrs = values .shard items
  disk : o.diskPath = (values .disk items).getLastD []
  metrics : Given 1 65535 0 (values .metricsPort items).getLast? o.metricsPort
  few : (positionals items).length ≤ 6
  host : o.host = if (positionals items).length < 2 then ascii "127.0.0.1"
    else (positionals items).headD []
  port : Given 1 65535 6380
    (positionals items)[if (positionals items).length = 1 then 0 else 1]? o.port
  threads : Given 1 4096 (defaultWorkers hw) (positionals items)[2]? o.numWorkers
  wal : o.walPath = (positionals items)[3]?.getD (ascii "redon.wal")
  idle : Given 0 86400 300 (positionals items)[4]? o.idleTimeoutSeconds
  capacity : Given 0 (2 ^ 63 - 1) 0 (positionals items)[5]? o.capacity
  role : [o.isFollower, !o.followerAddrs.isEmpty, !o.raftPeers.isEmpty,
    !o.shardAddrs.isEmpty].count true ≤ 1
  router : o.diskPath = [] ∨ o.shardAddrs = []
  ports : o.metricsPort ≠ o.port

section Assembly

variable {hw : ℕ} {items : List Item} {args pos : List Bytes} {o o' : Options}

theorem bind_eq_ok {ε α β : Type} {x : Except ε α} {f : α → Except ε β} {b : β} :
    x >>= f = .ok b ↔ ∃ a, x = .ok a ∧ f a = .ok b := by
  constructor
  · intro h
    rcases x with e | a
    · cases h
    · exact ⟨a, rfl, h⟩
  · rintro ⟨a, rfl, h⟩
    exact h

theorem setAddress_ok_iff : setAddress pos o = .ok o' ↔
    ∃ port, Given 1 65535 o.port pos[if pos.length = 1 then 0 else 1]? port
      ∧ { o with host := if pos.length < 2 then o.host else pos.headD [], port := port } = o' := by
  have hset (i : ℕ) (o : Options) : setNumber pos i parsePort (ascii "port") []
      (fun n => { o with port := n }) o = .ok o'
        ↔ ∃ n, Given 1 65535 o.port pos[i]? n ∧ { o with port := n } = o' :=
    setNumber_ok_iff (fun _ _ => parsePort_eq_some) rfl
  unfold setAddress
  by_cases hone : pos.length = 1
  · rw [if_pos hone, if_pos hone, if_pos (by omega)]
    exact hset 0 o
  · rw [if_neg hone, if_neg hone]
    by_cases htwo : 2 ≤ pos.length
    · rw [if_pos htwo, if_neg (not_lt.2 htwo)]
      exact hset 1 _
    · have hnil : pos = [] := List.length_eq_zero_iff.1 (by omega)
      subst hnil
      simp [Given]

theorem setThreads_ok_iff : setThreads pos o = .ok o' ↔
    ∃ n, Given 1 4096 o.numWorkers pos[2]? n ∧ { o with numWorkers := n } = o' :=
  setNumber_ok_iff (fun _ _ => parseWorkers_eq_some) rfl

theorem setIdle_ok_iff : setIdle pos o = .ok o' ↔
    ∃ n, Given 0 86400 o.idleTimeoutSeconds pos[4]? n ∧ { o with idleTimeoutSeconds := n } = o' :=
  setNumber_ok_iff (fun _ _ => parseTimeout_eq_some) rfl

theorem setCapacity_ok_iff : setCapacity pos o = .ok o' ↔
    ∃ n, Given 0 (2 ^ 63 - 1) o.capacity pos[5]? n ∧ { o with capacity := n } = o' :=
  setNumber_ok_iff (fun _ _ => parseCapacity_eq_some) rfl

theorem setWal_eq : setWal pos o = { o with walPath := pos[3]?.getD o.walPath } := by
  unfold setWal
  rcases pos[3]? with _ | path <;> rfl

theorem check_ok_iff : check pos o = .ok o' ↔ (pos.length ≤ 6 ∧ o.conflict = none
    ∧ ¬ (o.metricsPort ≠ 0 ∧ o.metricsPort % 2 ^ 16 = o.port)) ∧ o = o' := by
  unfold check
  by_cases h : 6 < pos.length
  · simp [h]
  · rw [if_neg h]
    rcases o.conflict with _ | e
    · simp only [Bool.and_eq_true, decide_eq_true_eq]
      split_ifs with hports
      · exact iff_of_false (fun he => by cases he) fun hc => hc.1.2.2 hports
      · rw [Except.ok.injEq]
        exact ⟨fun he => ⟨⟨not_lt.1 h, trivial, hports⟩, he⟩, And.right⟩
    · simp

/-- The settings that `main` comes to by the flags, the four numbers and the texts. -/
def settled (hw : ℕ) (items : List Item) (port threads idle capacity : ℕ) : Options :=
  { told { numWorkers := defaultWorkers hw } items with
    host := if (positionals items).length < 2 then ascii "127.0.0.1"
      else (positionals items).headD []
    port := port
    numWorkers := threads
    walPath := (positionals items)[3]?.getD (ascii "redon.wal")
    idleTimeoutSeconds := idle
    capacity := capacity }

theorem main_items (hok : ∀ i ∈ items, i.Ok) : main hw (items.flatMap Item.args) = .ok o ↔
    ∃ port threads idle capacity,
      Given 1 65535 6380 (positionals items)[if (positionals items).length = 1 then 0 else 1]? port
      ∧ Given 1 4096 (defaultWorkers hw) (positionals items)[2]? threads
      ∧ Given 0 86400 300 (positionals items)[4]? idle
      ∧ Given 0 (2 ^ 63 - 1) 0 (positionals items)[5]? capacity
      ∧ check (positionals items) (settled hw items port threads idle capacity) = .ok o := by
  rw [main, separate_items _ _ hok, foldl_apply, List.nil_append, bind_eq_ok]
  simp only [Except.ok.injEq, exists_eq_left', bind_eq_ok, setAddress_ok_iff, setThreads_ok_iff,
    setWal_eq, setIdle_ok_iff, setCapacity_ok_iff]
  constructor
  · rintro ⟨_, ⟨port, hport, rfl⟩, _, ⟨threads, hthreads, rfl⟩, _, ⟨idle, hidle, rfl⟩, _,
      ⟨capacity, hcapacity, rfl⟩, hcheck⟩
    exact ⟨port, threads, idle, capacity, hport, hthreads, hidle, hcapacity, hcheck⟩
  · rintro ⟨port, threads, idle, capacity, hport, hthreads, hidle, hcapacity, hcheck⟩
    exact ⟨_, ⟨port, hport, rfl⟩, _, ⟨threads, hthreads, rfl⟩, _, ⟨idle, hidle, rfl⟩, _,
      ⟨capacity, hcapacity, rfl⟩, hcheck⟩

/-- The flag's values are ports. -/
theorem names_of_mem_values (hok : ∀ i ∈ items, i.Ok) :
    ∀ v ∈ values .metricsPort items, ∃ n, Names 1 65535 v n := by
  intro v hv
  obtain ⟨i, hi, hv⟩ := List.mem_filterMap.1 hv
  rcases i with _ | ⟨f, value⟩ | _
  · cases hv
  · obtain ⟨rfl, hv⟩ := Option.ite_none_right_eq_some.1 hv
    obtain rfl := Option.some.inj hv
    exact hok _ hi
  · cases hv

theorem settled_metricsPort (hok : ∀ i ∈ items, i.Ok) (port threads idle capacity : ℕ) {n : ℕ} :
    (settled hw items port threads idle capacity).metricsPort = n
      ↔ Given 1 65535 0 (values .metricsPort items).getLast? n :=
  getLastD_filterMap (names_of_mem_values hok) n

/-- The check of the ports, for ports in range. -/
theorem ports_differ {mp port : ℕ} (hmp : (mp : ℤ) ≤ 65535) (hport : 1 ≤ (port : ℤ)) :
    ¬ (mp ≠ 0 ∧ mp % 2 ^ 16 = port) ↔ mp ≠ port := by
  omega

theorem Describes.settled (h : Describes hw items o) (hok : ∀ i ∈ items, i.Ok) :
    settled hw items o.port o.numWorkers o.idleTimeoutSeconds o.capacity = o := by
  refine Options.ext ?_ rfl ?_ ?_ ?_ ?_ ?_ rfl ?_ rfl rfl ?_
  · exact h.host.symm
  · exact (Bool.false_or _).trans h.replica.symm
  · exact h.followers.symm
  · exact h.peers.symm
  · exact h.shards.symm
  · exact h.disk.symm
  · exact h.wal.symm
  · exact (settled_metricsPort hok _ _ _ _).2 h.metrics

end Assembly

/-- `main` makes a server exactly of the command lines that describe settings, and with these. -/
theorem main_ok_iff (hw : ℕ) (args : List Bytes) (o : Options) : main hw args = .ok o ↔
    ∃ items : List Item, args = items.flatMap Item.args
      ∧ (∀ i ∈ items, i.Ok) ∧ Describes hw items o := by
  constructor
  · intro h
    obtain ⟨r, hsep, -⟩ := bind_eq_ok.1 h
    obtain ⟨items, rfl, hok⟩ := written_of_separate hsep
    obtain ⟨port, threads, idle, capacity, hport, hthreads, hidle, hcapacity, hcheck⟩ :=
      (main_items hok).1 h
    obtain ⟨⟨hfew, hconflict, hports⟩, rfl⟩ := check_ok_iff.1 hcheck
    have hmetrics := (settled_metricsPort (n := (settled hw items port threads idle
      capacity).metricsPort) hok port threads idle capacity).1 rfl
    obtain ⟨hrole, hrouter⟩ := conflict_eq_none.1 hconflict
    exact ⟨items, rfl, hok,
      { replica := Bool.false_or _
        followers := rfl
        peers := rfl
        shards := rfl
        disk := rfl
        metrics := hmetrics
        few := hfew
        host := rfl
        port := hport
        threads := hthreads
        wal := rfl
        idle := hidle
        capacity := hcapacity
        role := hrole
        router := hrouter
        ports := (ports_differ (hmetrics.le (by decide)) (hport.ge (by decide))).1 hports }⟩
  · rintro ⟨items, rfl, hok, hd⟩
    refine (main_items hok).2 ⟨o.port, o.numWorkers, o.idleTimeoutSeconds, o.capacity, hd.port,
      hd.threads, hd.idle, hd.capacity, check_ok_iff.2 ?_⟩
    rw [hd.settled hok]
    refine ⟨⟨hd.few, conflict_eq_none.2 ⟨hd.role, hd.router⟩, ?_⟩, rfl⟩
    exact (ports_differ (hd.metrics.le (by decide)) (hd.port.ge (by decide))).2 hd.ports

end Main

end Redon
