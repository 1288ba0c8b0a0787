/-!
# Caches

A cache answers only what was put into it. What it may still answer is `holds`: `put` adds a value
and both calls may drop others, so nothing depends on its capacity or on its eviction order.
-/

structure Cache (κ α β : Type) where
  get : κ → α → Option β × κ
  put : κ → α → β → κ
  holds : κ → α → β → Prop
  get_some : ∀ {c p v}, (get c p).1 = some v → holds c p v
  get_holds : ∀ {c p q v}, holds (get c p).2 q v → holds c q v
  put_holds : ∀ {c p v q w}, holds (put c p v) q w → (q = p ∧ w = v) ∨ holds c q w
