/-
  LimitOrderBook.MarketDataHandler

  `market_data.h`: the record of what the engine did and the trade callback.

  The callback is a function on the state of its subscriber, so that calling it
  for a trade is a step of that state.  A callback that calls the handler again
  is left out.
-/
import LimitOrderBook.Types
import LimitOrderBook.Lib.Run

namespace LimitOrderBook

variable {σ : Type*}

structure MarketDataHandler (σ : Type*) where
  recentTrades : List Trade
  recentReports : List ExecutionReport
  tradeCallback : Option (Trade → σ → σ)

namespace MarketDataHandler

/-- Nothing recorded, no callback. -/
def make : MarketDataHandler σ := ⟨[], [], none⟩

/-- `trade_callback_(trade)`, if there is a callback. -/
def notify (tradeCallback : Option (Trade → σ → σ)) (subscriber : σ) (trade : Trade) : σ :=
  match tradeCallback with
  | none => subscriber
  | some callback => callback trade subscriber

def pushTrade (self : MarketDataHandler σ) (trade : Trade) : MarketDataHandler σ :=
  { self with recentTrades := self.recentTrades ++ [trade] }

def pushReport (self : MarketDataHandler σ) (report : ExecutionReport) : MarketDataHandler σ :=
  { self with recentReports := self.recentReports ++ [report] }

/-- Process trade events from the matching engine. -/
def onMatchEvent (self : MarketDataHandler σ) (subscriber : σ) (event : MatchEvent) :
    MarketDataHandler σ × σ :=
  let r := event.trades.foldl
    (fun r trade => (r.1.pushTrade trade, notify r.1.tradeCallback r.2 trade)) (self, subscriber)
  (event.reports.foldl pushReport r.1, r.2)

def clear (self : MarketDataHandler σ) : MarketDataHandler σ :=
  { self with recentTrades := [], recentReports := [] }

/-- Set a callback for real-time trade notifications. -/
def setTradeCallback (self : MarketDataHandler σ) (callback : Option (Trade → σ → σ)) :
    MarketDataHandler σ := { self with tradeCallback := callback }

section

variable {self : MarketDataHandler σ} {subscriber : σ}

theorem foldl_trades (trades : List Trade) :
    trades.foldl (fun r trade => (r.1.pushTrade trade, notify r.1.tradeCallback r.2 trade))
        (self, subscriber) =
      ({ self with recentTrades := self.recentTrades ++ trades },
        trades.foldl (notify self.tradeCallback) subscriber) := by
  induction trades generalizing self subscriber with
  | nil => rw [List.append_nil, List.foldl_nil, List.foldl_nil]
  | cons trade trades ih =>
      rw [List.foldl_cons, ih, List.foldl_cons]
      simp [pushTrade]

theorem foldl_reports (reports : List ExecutionReport) :
    reports.foldl pushReport self =
      { self with recentReports := self.recentReports ++ reports } := by
  induction reports generalizing self with
  | nil => rw [List.append_nil, List.foldl_nil]
  | cons report reports ih =>
      rw [List.foldl_cons, ih]
      simp [pushReport]

/-- An event is recorded as it is, and every trade of it is notified. -/
theorem onMatchEvent_eq (event : MatchEvent) :
    self.onMatchEvent subscriber event =
      ({ self with
          recentTrades := self.recentTrades ++ event.trades
          recentReports := self.recentReports ++ event.reports },
        event.trades.foldl (notify self.tradeCallback) subscriber) := by
  rw [onMatchEvent, foldl_trades, foldl_reports]

end

end MarketDataHandler

end LimitOrderBook
