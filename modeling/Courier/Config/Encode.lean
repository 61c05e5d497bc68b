import Courier.Config.Basic
import Courier.Json.Encode

/-!
The JSON image of a configuration, with the keys of its file.
-/

namespace Courier

open Json ToValue

instance : ToValue DatabaseConfig := ⟨fun c => .ofMembers [("path", toValue c.path)]⟩

instance : ToValue TelegramConfig := ⟨fun c => .ofMembers [("bot_token", toValue c.botToken)]⟩

instance : ToValue SchedulerConfig where
  toValue c := .ofMembers
    [("sync_interval_secs", toValue c.syncIntervalSecs),
     ("sync_timeout_secs", toValue c.syncTimeoutSecs), ("queue_capacity", toValue c.queueCapacity)]

instance : ToValue DispatchConfig where
  toValue c := .ofMembers
    [("max_workers", toValue c.maxWorkers), ("tick_millis", toValue c.tickMillis),
     ("worker_period_secs", toValue c.workerPeriodSecs), ("max_retry", toValue c.maxRetry),
     ("bus_capacity", toValue c.busCapacity)]

instance : ToValue Config where
  toValue c := .ofMembers
    [("database", toValue c.database), ("telegram", toValue c.telegram),
     ("scheduler", toValue c.scheduler), ("dispatch", toValue c.dispatch)]

end Courier
