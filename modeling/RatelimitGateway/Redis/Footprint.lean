import RatelimitGateway.Redis.Commands

/-!
# Which key a script touches

A script that acts on one key replies by what it finds there, leaves there
what follows from what it found, and leaves every other key as it was
(`ActsOn`). Every command acts on the key it is given, and scripts put
together from parts that act on one key act on that key.
-/

namespace RatelimitGateway.Redis

open KeyStore

/-- The script reads and writes only `key`. -/
structure ActsOn {α : Type} (key : String) (script : Script α) : Prop where
  reply : ∀ {c : Clock} {s s' : Store}, s key = s' key →
    (exec script c s).1 = (exec script c s').1
  entry : ∀ {c : Clock} {s s' : Store}, s key = s' key →
    (exec script c s).2 key = (exec script c s').2 key
  frame : ∀ (c : Clock) (s : Store) {k : String}, k ≠ key → (exec script c s).2 k = s k

section Parts

variable {α β : Type} {key : String}

theorem actsOn_pure (a : α) : ActsOn key (pure a) where
  reply := fun _ => rfl
  entry := fun h => h
  frame := fun _ _ _ _ => rfl

/-- Scripts that act on one key, one after the other. -/
theorem ActsOn.bind {x : Script α} {f : α → Script β} (hx : ActsOn key x)
    (hf : ∀ a, ActsOn key (f a)) : ActsOn key (x >>= f) where
  reply := fun {c s s'} h => by
    have hReply := hx.reply (c := c) h
    have hEntry := hx.entry (c := c) h
    rw [exec_bind, exec_bind]
    generalize exec x c s = p, exec x c s' = p' at hReply hEntry ⊢
    obtain ⟨r, t⟩ := p
    obtain ⟨r', t'⟩ := p'
    -- the first command answers the same, so the rest is the same script
    obtain rfl : r = r' := hReply
    cases r with
    | ok a => exact (hf a).reply hEntry
    | error e => rfl
  entry := fun {c s s'} h => by
    have hReply := hx.reply (c := c) h
    have hEntry := hx.entry (c := c) h
    rw [exec_bind, exec_bind]
    generalize exec x c s = p, exec x c s' = p' at hReply hEntry ⊢
    obtain ⟨r, t⟩ := p
    obtain ⟨r', t'⟩ := p'
    obtain rfl : r = r' := hReply
    cases r with
    | ok a => exact (hf a).entry hEntry
    | error e => exact hEntry
  frame := fun c s {k} hk => by
    have hFrame := hx.frame c s hk
    rw [exec_bind]
    generalize exec x c s = p at hFrame ⊢
    obtain ⟨r, t⟩ := p
    cases r with
    | ok a => exact ((hf a).frame c t hk).trans hFrame
    | error e => exact hFrame

/-! ## The commands -/

theorem valueAt_congr {c : Clock} {s s' : Store} (h : s key = s' key) :
    valueAt c s key = valueAt c s' key := by
  simp only [valueAt, find, h]

theorem write_congr {c : Clock} {s s' : Store} (h : s key = s' key) (v : Value) :
    write c s key v key = write c s' key v key := by
  simp only [write_self, find, h]

theorem zget_congr {c : Clock} {s s' : Store} (h : s key = s' key) :
    zget c s key = zget c s' key := by
  simp only [zget, valueAt_congr h]

/-- `HMGET` reads its key alone. -/
theorem actsOn_hmget : ActsOn key (hmget key) where
  reply := fun {c s s'} h => by
    simp only [exec, hmget, command, valueAt_congr h]
    split <;> rfl
  entry := fun {c s s'} h => by
    simp only [exec, hmget, command, valueAt_congr h]
    split <;> exact h
  frame := fun c s k _ => by
    simp only [exec, hmget, command]
    split <;> rfl

/-- `HSET` acts on its key alone. -/
theorem actsOn_hset (tokens updatedAt : ℚ) : ActsOn key (hset key tokens updatedAt) where
  reply := fun {c s s'} h => by
    simp only [exec, hset, command, valueAt_congr h]
    split <;> rfl
  entry := fun {c s s'} h => by
    simp only [exec, hset, command, valueAt_congr h]
    split
    · exact write_congr h _
    · exact write_congr h _
    · exact h
  frame := fun c s k hk => by
    simp only [exec, hset, command]
    split <;> simp [write, Function.update_of_ne hk]

/-- So does `INCR`. -/
theorem actsOn_incr : ActsOn key (incr key) where
  reply := fun {c s s'} h => by
    simp only [exec, incr, command, valueAt_congr h]
    split <;> rfl
  entry := fun {c s s'} h => by
    simp only [exec, incr, command, valueAt_congr h]
    split
    · exact write_congr h _
    · exact write_congr h _
    · exact h
  frame := fun c s k hk => by
    simp only [exec, incr, command]
    split <;> simp [write, Function.update_of_ne hk]

/-- So does `ZREMRANGEBYSCORE`. -/
theorem actsOn_zremrangebyscore (max : ℤ) : ActsOn key (zremrangebyscore key max) where
  reply := fun {c s s'} h => by
    simp only [exec, zremrangebyscore, command, zget_congr h]
    split
    · -- the set may become empty, and then the key is removed
      split <;> rfl
    · rfl
  entry := fun {c s s'} h => by
    simp only [exec, zremrangebyscore, command, zget_congr h]
    split
    · split
      · simp
      · exact write_congr h _
    · exact h
  frame := fun c s k hk => by
    simp only [exec, zremrangebyscore, command]
    split
    · split <;> simp [write, erase, Function.update_of_ne hk]
    · rfl

theorem actsOn_zcard : ActsOn key (zcard key) where
  reply := fun {c s s'} h => by simp only [exec, zcard, command, zget_congr h]
  entry := fun h => h
  frame := fun _ _ _ _ => rfl

/-- So does `ZADD`. -/
theorem actsOn_zadd (score : ℤ) (member : String) : ActsOn key (zadd key score member) where
  reply := fun {c s s'} h => by
    simp only [exec, zadd, command, zget_congr h]
    split <;> rfl
  entry := fun {c s s'} h => by
    simp only [exec, zadd, command, zget_congr h]
    split
    · exact write_congr h _
    · exact h
  frame := fun c s k hk => by
    simp only [exec, zadd, command]
    split <;> simp [write, Function.update_of_ne hk]

theorem actsOn_zrangeFirst : ActsOn key (zrangeFirst key) where
  reply := fun {c s s'} h => by simp only [exec, zrangeFirst, command, zget_congr h]
  entry := fun h => h
  frame := fun _ _ _ _ => rfl

/-- So does `PEXPIRE`. -/
theorem actsOn_pexpire (ms : ℤ) : ActsOn key (pexpire key ms) where
  reply := fun _ => rfl
  entry := fun {c s s'} h => by
    have hFind : find c s key = find c s' key := by simp only [find, h]
    simp only [exec, pexpire, command, expireAt, hFind]
    cases find c s' key with
    | none => exact h
    | some x => simp
  frame := fun c s k hk => by
    simp only [exec, pexpire, command, expireAt]
    cases find c s key with
    | none => rfl
    | some x => exact Function.update_of_ne hk _ _

end Parts

end RatelimitGateway.Redis
