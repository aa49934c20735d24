-- What continuous batching is for. No request waits longer than it would in
-- fixed batches that each run until their last sequence ends, and no other way
-- to share the slots is more than twice as fast.
import InferenceServer.Throughput

namespace inference_server

open machine list_scheduling

/-- Cut the front of the queue, at any moment of any run, into batches of at
most `max_slots` requests. With static batching the first one starts when all
slots are free, and each next one when the one before has ended. As long as a
request of the last batch is not answered, fewer calls of `llama_decode` have
returned than static batching needs for that batch. -/
theorem continuous_batching_never_loses_to_static_batching (L : Llama) (cfg : EngineConfig)
    (hslots : 0 < cfg.max_slots) (as bs : List Engine.Action) (batches : List (List Request))
    (last rest : List Request) (t : Nat) (start : Nat)
    (hpending : ((engine L cfg).run as).pending = batches.flatten ++ last ++ rest)
    (hsize : ∀ batch ∈ batches, batch.length ≤ cfg.max_slots)
    (hlast : last.length ≤ cfg.max_slots)
    (hstart : ∀ x ∈ ((engine L cfg).run as).loads L cfg, x ≤ start)
    (hmem : 0 < inQueue last t) (hopen : ((engine L cfg).run (as ++ bs)).answered t = 0) :
    ((engine L cfg).run (as ++ bs)).returned <
      inBatches start ((batches ++ [last]).map (fun batch => batch.map (plannedOf L cfg))) := by
  obtain ⟨r, hr, ht⟩ := inQueue_pos_iff.mp hmem
  obtain ⟨before, after, rfl⟩ := List.append_of_mem hr
  have hsplit : ((engine L cfg).run as).pending =
      (batches.flatten ++ before) ++ r :: (after ++ rest) := by
    rw [hpending]
    simp
  have hplan := returned_lt_finish L cfg hslots as bs hsplit ht hopen
  have hlen : (((engine L cfg).run as).loads L cfg).length = cfg.max_slots :=
    loads_length hslots _
  have hbatch := finish_le_batches (List.ne_nil_of_length_pos (hlen.symm ▸ hslots)) hstart
    (batches.map (fun batch => batch.map (plannedOf L cfg))) (before.map (plannedOf L cfg))
    (plannedOf L cfg r) (after.map (plannedOf L cfg)) ?_ ?_
  · rw [List.map_append, List.map_flatten] at hplan
    rw [List.map_append]
    simpa using lt_of_lt_of_le hplan hbatch
  · intro b hb
    obtain ⟨batch, hbatch, rfl⟩ := List.mem_map.mp hb
    rw [hlen, List.length_map]
    exact hsize batch hbatch
  · rw [hlen]
    simpa using hlast

/-- Static batching runs the requests of 3 and 1 tokens, then the one of 2. -/
theorem continuous_batching_never_loses_to_static_batching_uneven :
    ((engine countingLlama unevenConfig).run
      (unevenRun ++ List.replicate 15 (.tick ⟨0, .ok⟩))).returned < inBatches 0 [[3, 1], [2]] :=
  continuous_batching_never_loses_to_static_batching countingLlama unevenConfig (by decide)
    unevenRun (List.replicate 15 (.tick ⟨0, .ok⟩))
    [[{ unevenWork 3 with on_complete := some 0 }, { unevenWork 1 with on_complete := some 1 }]]
    [{ unevenWork 2 with on_complete := some 2 }] [] 2 0 (by decide +kernel) (by decide)
    (by decide) (by decide +kernel) (by decide) (by decide +kernel)

/-- Assign the requests of the queue up to and with some request to the slots
in any way, between two iterations of any run: behind the sequences that the
slots hold, and in any order. When all of that is done after `latest` calls of
`llama_decode`, the engine answers the request within a factor of
`2 - 1 / max_slots` of it. -/
theorem no_assignment_is_twice_as_fast (L : Llama) (cfg : EngineConfig)
    (hslots : 0 < cfg.max_slots) (as bs : List Engine.Action) (before : List Request)
    (r : Request) (after : List Request) (t : Nat) (jobs : List (Fin cfg.max_slots × Request))
    (latest : Nat)
    (hboundary : ((engine L cfg).run as).place.boundary = true)
    (hpending : ((engine L cfg).run as).pending = before ++ r :: after)
    (ht : r.on_complete = some t) (hjobs : (jobs.map Prod.snd).Perm (before ++ [r]))
    (hlatest : ∀ sid, assigned
      (fun sid => (((engine L cfg).run as).view sid).decodesLeft L cfg)
      (jobs.map (fun job => (job.1, plannedOf L cfg job.2))) sid ≤ latest)
    (hopen : ((engine L cfg).run (as ++ bs)).answered t = 0) :
    cfg.max_slots * ((engine L cfg).run (as ++ bs)).returned <
      cfg.max_slots * ((engine L cfg).run as).returned + (2 * cfg.max_slots - 1) * latest := by
  have hplan := returned_lt_finish L cfg hslots as bs hpending ht hopen
  have hlen : (((engine L cfg).run as).loads L cfg).length = cfg.max_slots :=
    loads_length hslots _
  have hcosts : ((jobs.map (fun job => (job.1, plannedOf L cfg job.2))).map Prod.snd).Perm
      (before.map (plannedOf L cfg) ++ [plannedOf L cfg r]) := by
    have hmap := hjobs.map (plannedOf L cfg)
    simpa [List.map_map, Function.comp_def] using hmap
  have hstart : (((engine L cfg).run as).loads L cfg).sum =
      (((engine L cfg).run as).loads L cfg).length • ((engine L cfg).run as).returned +
        ∑ sid, (((engine L cfg).run as).view sid).decodesLeft L cfg := by
    rw [hlen, loads_open (boundary_open hboundary) (boundary_drained hboundary), slotLoads_sum]
    rfl
  have hany := finish_le_twice_any (List.ne_nil_of_length_pos (hlen.symm ▸ hslots))
    (hlen.trans (Fintype.card_fin _).symm) hstart hcosts hlatest
  rw [hlen] at hany
  simp only [smul_eq_mul] at hany
  have hmul := Nat.mul_lt_mul_of_pos_left hplan hslots
  omega

/-- One slot takes the request of 3 tokens, the other one those of 1 and 2. -/
theorem no_assignment_is_twice_as_fast_uneven :
    2 * ((engine countingLlama unevenConfig).run
      (unevenRun ++ List.replicate 15 (.tick ⟨0, .ok⟩))).returned <
      2 * ((engine countingLlama unevenConfig).run unevenRun).returned + 3 * 3 :=
  no_assignment_is_twice_as_fast countingLlama unevenConfig (by decide) unevenRun
    (List.replicate 15 (.tick ⟨0, .ok⟩))
    [{ unevenWork 3 with on_complete := some 0 }, { unevenWork 1 with on_complete := some 1 }]
    { unevenWork 2 with on_complete := some 2 } [] 2
    [(⟨0, by decide⟩, { unevenWork 3 with on_complete := some 0 }),
      (⟨1, by decide⟩, { unevenWork 1 with on_complete := some 1 }),
      (⟨1, by decide⟩, { unevenWork 2 with on_complete := some 2 })] 3 rfl (by decide +kernel) rfl
    (by decide +kernel) (by decide +kernel) (by decide +kernel)

end inference_server
