/-
Pictures by name.

In a text that is shown, a name between two colons stands for a picture. This file holds the names
with their pictures, and puts the pictures in the place of the codes. A code that is not known stays
as it is.
-/
import MathScribe.Text.Case
import MathScribe.Text.Chop

set_option autoImplicit false

namespace MathScribe

namespace Picture

/-- The names, each with its picture behind it. -/
def table : String :=
"a 🅰 b 🅱 m Ⓜ o ⭕ v ✌ x ❌ o2 🅾 ab 🆎 cl 🆑 id 🆔 ng 🆖 ok 🆗 on 🔛 sa 🈂 tm ™ up 🆙 vs 🆚 abc 🔤 abcd 🔡
1234 🔢 100 💯 +1 👍 -1 👎 end 🔚 back 🔙 soon 🔜 top 🔝 new 🆕 cool 🆒 free 🆓 sos 🆘 koko 🈁 cn 🇨🇳 de 🇩🇪
es 🇪🇸 fr 🇫🇷 gb 🇬🇧 it 🇮🇹 jp 🇯🇵 kr 🇰🇷 ru 🇷🇺 uk 🇬🇧 us 🇺🇸 smile 😄 smiley 😃 grinning 😀 blush 😊
relaxed ☺ wink 😉 heart_eyes 😍 kissing_heart 😘 kissing_closed_eyes 😚 kissing 😗
kissing_smiling_eyes 😙 stuck_out_tongue_winking_eye 😜 stuck_out_tongue_closed_eyes 😝
stuck_out_tongue 😛 flushed 😳 grin 😁 pensive 😔 relieved 😌 unamused 😒 disappointed 😞 persevere 😣
cry 😢 joy 😂 sob 😭 sleepy 😪 disappointed_relieved 😥 cold_sweat 😰 sweat_smile 😅 sweat 😓 weary 😩
tired_face 😫 fearful 😨 scream 😱 angry 😠 rage 😡 triumph 😤 confounded 😖 laughing 😆 satisfied 😆
yum 😋 mask 😷 sunglasses 😎 sleeping 😴 dizzy_face 😵 astonished 😲 worried 😟 frowning 😦
anguished 😧 smiling_imp 😈 imp 👿 open_mouth 😮 grimacing 😬 neutral_face 😐 confused 😕 hushed 😯
no_mouth 😶 innocent 😇 smirk 😏 expressionless 😑 grinning_face 😀 thinking_face 🤔 thinking 🤔
cop 👮 construction_worker 👷 guardsman 💂 baby 👶 boy 👦 girl 👧 man 👨 woman 👩 older_man 👴
older_woman 👵 angel 👼 princess 👸 smiley_cat 😺 smile_cat 😸 heart_eyes_cat 😻 kissing_cat 😽
smirk_cat 😼 scream_cat 🙀 crying_cat_face 😿 joy_cat 😹 pouting_cat 😾 japanese_ogre 👹
japanese_goblin 👺 see_no_evil 🙈 hear_no_evil 🙉 speak_no_evil 🙊 skull 💀 alien 👽 hankey 💩 poop 💩
shit 💩 pile_of_poo 💩 fire 🔥 sparkles ✨ star ⭐ star2 🌟 dizzy 💫 boom 💥 collision 💥 anger 💢
sweat_drops 💦 droplet 💧 zzz 💤 dash 💨 ear 👂 eyes 👀 nose 👃 tongue 👅 lips 👄 mouth 👄 thumbsup 👍
thumbsdown 👎 thumbs_up 👍 thumbs_down 👎 ok_hand 👌 punch 👊 facepunch 👊 fist ✊ wave 👋 hand ✋
raised_hand ✋ open_hands 👐 point_up_2 👆 point_down 👇 point_right 👉 point_left 👈 raised_hands 🙌
raising_hands 🙌 pray 🙏 folded_hands 🙏 point_up ☝ clap 👏 clapping_hands 👏 muscle 💪
flexed_biceps 💪 walking 🚶 runner 🏃 running 🏃 dancer 💃 couple 👫 family 👪
two_men_holding_hands 👬 two_women_holding_hands 👭 couplekiss 💏 couple_with_heart 💑 dancers 👯
ok_woman 🙆 no_good 🙅 information_desk_person 💁 raising_hand 🙋 massage 💆 haircut 💇 nail_care 💅
bride_with_veil 👰 person_frowning 🙍 bow 🙇 tophat 🎩 crown 👑 womans_hat 👒 athletic_shoe 👟
mans_shoe 👞 shoe 👞 sandal 👡 high_heel 👠 boot 👢 shirt 👕 tshirt 👕 necktie 👔 womans_clothes 👚
dress 👗 running_shirt_with_sash 🎽 jeans 👖 kimono 👘 bikini 👙 briefcase 💼 handbag 👜 pouch 👝
purse 👛 eyeglasses 👓 glasses 👓 ribbon 🎀 closed_umbrella 🌂 lipstick 💄 heart ❤ red_heart ❤
yellow_heart 💛 blue_heart 💙 purple_heart 💜 green_heart 💚 broken_heart 💔 heartpulse 💗
heartbeat 💓 two_hearts 💕 sparkling_heart 💖 revolving_hearts 💞 cupid 💘 love_letter 💌 kiss 💋
ring 💍 gem 💎 gem_stone 💎 bust_in_silhouette 👤 busts_in_silhouette 👥 speech_balloon 💬
footprints 👣 thought_balloon 💭 dog 🐶 wolf 🐺 cat 🐱 mouse 🐭 hamster 🐹 rabbit 🐰 frog 🐸 tiger 🐯
koala 🐨 bear 🐻 pig 🐷 pig_nose 🐽 cow 🐮 boar 🐗 monkey_face 🐵 monkey 🐒 horse 🐴 sheep 🐑 elephant 🐘
panda_face 🐼 penguin 🐧 bird 🐦 baby_chick 🐤 hatched_chick 🐥 hatching_chick 🐣 chicken 🐔 snake 🐍
turtle 🐢 bug 🐛 bee 🐝 honeybee 🐝 ant 🐜 beetle 🐞 lady_beetle 🐞 snail 🐌 octopus 🐙 shell 🐚
tropical_fish 🐠 fish 🐟 dolphin 🐬 flipper 🐬 whale 🐳 whale2 🐋 cow2 🐄 ram 🐏 rat 🐀 water_buffalo 🐃
tiger2 🐅 rabbit2 🐇 dragon 🐉 racehorse 🐎 goat 🐐 rooster 🐓 dog2 🐕 pig2 🐖 mouse2 🐁 ox 🐂
dragon_face 🐲 blowfish 🐡 crocodile 🐊 camel 🐫 dromedary_camel 🐪 leopard 🐆 cat2 🐈 poodle 🐩
feet 🐾 paw_prints 🐾 unicorn 🦄 unicorn_face 🦄 bouquet 💐 cherry_blossom 🌸 tulip 🌷
four_leaf_clover 🍀 rose 🌹 sunflower 🌻 hibiscus 🌺 maple_leaf 🍁 leaves 🍃 fallen_leaf 🍂 herb 🌿
ear_of_rice 🌾 mushroom 🍄 cactus 🌵 palm_tree 🌴 evergreen_tree 🌲 deciduous_tree 🌳 chestnut 🌰
seedling 🌱 blossom 🌼 globe_with_meridians 🌐 sun_with_face 🌞 full_moon_with_face 🌝
new_moon_with_face 🌚 new_moon 🌑 waxing_crescent_moon 🌒 first_quarter_moon 🌓 full_moon 🌕
waning_gibbous_moon 🌖 last_quarter_moon 🌗 waning_crescent_moon 🌘 crescent_moon 🌙
earth_africa 🌍 earth_americas 🌎 earth_asia 🌏 volcano 🌋 milky_way 🌌 stars 🌠 sunny ☀ sun ☀
partly_sunny ⛅ cloud ☁ zap ⚡ high_voltage ⚡ snowflake ❄ cyclone 🌀 foggy 🌁 rainbow 🌈 ocean 🌊
water_wave 🌊 bamboo 🎍 gift_heart 💝 dolls 🎎 school_satchel 🎒 mortar_board 🎓 graduation_cap 🎓
flags 🎏 fireworks 🎆 sparkler 🎇 wind_chime 🎐 rice_scene 🎑 jack_o_lantern 🎃 ghost 👻 santa 🎅
christmas_tree 🎄 gift 🎁 wrapped_gift 🎁 tanabata_tree 🎋 tada 🎉 party_popper 🎉 confetti_ball 🎊
balloon 🎈 crossed_flags 🎌 crystal_ball 🔮 movie_camera 🎥 camera 📷 video_camera 📹 vhs 📼 cd 💿
dvd 📀 minidisc 💽 floppy_disk 💾 computer 💻 iphone 📱 telephone_receiver 📞 pager 📟 fax 📠 tv 📺
television 📺 radio 📻 loud_sound 🔊 sound 🔉 speaker 🔈 mute 🔇 bell 🔔 no_bell 🔕 loudspeaker 📢
mega 📣 hourglass_flowing_sand ⏳ hourglass ⌛ alarm_clock ⏰ watch ⌚ unlock 🔓 lock 🔒
lock_with_ink_pen 🔏 closed_lock_with_key 🔐 key 🔑 mag_right 🔎 bulb 💡 light_bulb 💡 flashlight 🔦
high_brightness 🔆 low_brightness 🔅 electric_plug 🔌 battery 🔋 mag 🔍 bathtub 🛁 bath 🛀 shower 🚿
toilet 🚽 wrench 🔧 nut_and_bolt 🔩 hammer 🔨 door 🚪 smoking 🚬 cigarette 🚬 bomb 💣 gun 🔫 pistol 🔫
hocho 🔪 knife 🔪 pill 💊 syringe 💉 moneybag 💰 money_bag 💰 yen 💴 dollar 💵 pound 💷 euro 💶
credit_card 💳 money_with_wings 💸 calling 📲 e-mail 📧 inbox_tray 📥 outbox_tray 📤 email ✉
envelope ✉ incoming_envelope 📨 postal_horn 📯 mailbox 📫 mailbox_closed 📪 postbox 📮 package 📦
memo 📝 page_facing_up 📄 page_with_curl 📃 bookmark_tabs 📑 bar_chart 📊
chart_with_upwards_trend 📈 chart_with_downwards_trend 📉 chart_increasing 📈 chart_decreasing 📉
scroll 📜 clipboard 📋 date 📅 calendar 📆 card_index 📇 file_folder 📁 open_file_folder 📂
scissors ✂ pushpin 📌 round_pushpin 📍 paperclip 📎 black_nib ✒ pencil2 ✏ straight_ruler 📏
triangular_ruler 📐 closed_book 📕 green_book 📗 blue_book 📘 orange_book 📙 notebook 📓
notebook_with_decorative_cover 📔 ledger 📒 books 📚 book 📖 open_book 📖 bookmark 🔖 name_badge 📛
microscope 🔬 telescope 🔭 newspaper 📰 art 🎨 artist_palette 🎨 clapper 🎬 microphone 🎤
headphones 🎧 musical_score 🎼 musical_note 🎵 notes 🎶 musical_keyboard 🎹 violin 🎻 trumpet 🎺
saxophone 🎷 guitar 🎸 space_invader 👾 video_game 🎮 black_joker 🃏 flower_playing_cards 🎴
mahjong 🀄 game_die 🎲 dart 🎯 football 🏈 basketball 🏀 soccer ⚽ baseball ⚾ tennis 🎾 8ball 🎱
rugby_football 🏉 bowling 🎳 golf ⛳ bicyclist 🚴 horse_racing 🏇 ski 🎿 skis 🎿 snowboarder 🏂
swimmer 🏊 surfer 🏄 fishing_pole_and_fish 🎣 trophy 🏆 checkered_flag 🏁 chequered_flag 🏁 coffee ☕
tea 🍵 sake 🍶 baby_bottle 🍼 beer 🍺 beers 🍻 cocktail 🍸 tropical_drink 🍹 wine_glass 🍷
fork_and_knife 🍴 pizza 🍕 hamburger 🍔 fries 🍟 french_fries 🍟 poultry_leg 🍗 meat_on_bone 🍖
spaghetti 🍝 curry 🍛 fried_shrimp 🍤 bento 🍱 sushi 🍣 fish_cake 🍥 rice_ball 🍙 rice_cracker 🍘
rice 🍚 ramen 🍜 stew 🍲 oden 🍢 dango 🍡 egg 🍳 bread 🍞 doughnut 🍩 custard 🍮 icecream 🍦 ice_cream 🍨
shaved_ice 🍧 birthday 🎂 birthday_cake 🎂 cake 🍰 shortcake 🍰 cookie 🍪 chocolate_bar 🍫 candy 🍬
lollipop 🍭 honey_pot 🍯 apple 🍎 red_apple 🍎 green_apple 🍏 tangerine 🍊 lemon 🍋 cherries 🍒
grapes 🍇 watermelon 🍉 strawberry 🍓 peach 🍑 melon 🍈 banana 🍌 pear 🍐 pineapple 🍍 sweet_potato 🍠
eggplant 🍆 tomato 🍅 corn 🌽 house 🏠 house_with_garden 🏡 school 🏫 office 🏢 post_office 🏣
hospital 🏥 bank 🏦 convenience_store 🏪 love_hotel 🏩 hotel 🏨 wedding 💒 church ⛪
department_store 🏬 city_sunrise 🌇 city_sunset 🌆 japanese_castle 🏯 european_castle 🏰 castle 🏰
tent ⛺ factory 🏭 tokyo_tower 🗼 japan 🗾 mount_fuji 🗻 sunrise_over_mountains 🌄 sunrise 🌅
statue_of_liberty 🗽 bridge_at_night 🌉 carousel_horse 🎠 ferris_wheel 🎡 fountain ⛲
roller_coaster 🎢 ship 🚢 boat ⛵ sailboat ⛵ speedboat 🚤 rowboat 🚣 anchor ⚓ rocket 🚀 airplane ✈
seat 💺 helicopter 🚁 steam_locomotive 🚂 locomotive 🚂 tram 🚊 station 🚉 train2 🚆 train 🚆
bullettrain_side 🚄 light_rail 🚈 metro 🚇 monorail 🚝 bus 🚌 oncoming_bus 🚍 trolleybus 🚎
blue_car 🚙 oncoming_automobile 🚘 car 🚗 red_car 🚗 automobile 🚗 taxi 🚕 oncoming_taxi 🚖
articulated_lorry 🚛 truck 🚚 rotating_light 🚨 police_car 🚓 oncoming_police_car 🚔 fire_engine 🚒
ambulance 🚑 minibus 🚐 bike 🚲 bicycle 🚲 aerial_tramway 🚡 suspension_railway 🚟
mountain_cableway 🚠 tractor 🚜 barber 💈 busstop 🚏 ticket 🎫 vertical_traffic_light 🚦
traffic_light 🚥 construction 🚧 beginner 🔰 fuelpump ⛽ izakaya_lantern 🏮 slot_machine 🎰
hotsprings ♨ moyai 🗿 circus_tent 🎪 performing_arts 🎭 triangular_flag_on_post 🚩 arrow_right ➡
arrow_left ⬅ arrow_up ⬆ arrow_down ⬇ arrow_upper_right ↗ arrow_upper_left ↖
arrow_lower_right ↘ arrow_lower_left ↙ left_right_arrow ↔ arrow_up_down ↕
arrows_counterclockwise 🔄 arrow_forward ▶ arrow_backward ◀ arrow_up_small 🔼 arrow_down_small 🔽
leftwards_arrow_with_hook ↩ arrow_right_hook ↪ rewind ⏪ fast_forward ⏩ arrow_double_up ⏫
arrow_double_down ⏬ arrow_heading_down ⤵ arrow_heading_up ⤴ twisted_rightwards_arrows 🔀
repeat 🔁 repeat_one 🔂 information_source ℹ signal_strength 📶 cinema 🎦 restroom 🚻 mens 🚹
womens 🚺 baby_symbol 🚼 wc 🚾 potable_water 🚰 parking 🅿 wheelchair ♿ no_smoking 🚭 accept 🉑
passport_control 🛂 baggage_claim 🛄 left_luggage 🛅 customs 🛃 underage 🔞 no_mobile_phones 📵
do_not_litter 🚯 non-potable_water 🚱 no_bicycles 🚳 no_pedestrians 🚷 children_crossing 🚸
no_entry ⛔ no_entry_sign 🚫 prohibited 🚫 eight_spoked_asterisk ✳ sparkle ❇
negative_squared_cross_mark ❎ white_check_mark ✅ eight_pointed_black_star ✴ heart_decoration 💟
vibration_mode 📳 mobile_phone_off 📴 diamond_shape_with_a_dot_inside 💠 loop ➿ recycle ♻ aries ♈
taurus ♉ gemini ♊ cancer ♋ leo ♌ virgo ♍ libra ♎ scorpius ♏ sagittarius ♐ capricorn ♑
aquarius ♒ pisces ♓ ophiuchus ⛎ six_pointed_star 🔯 atm 🏧 chart 💹 heavy_dollar_sign 💲
currency_exchange 💱 copyright © registered ® bangbang ‼ interrobang ⁉ exclamation ❗
heavy_exclamation_mark ❗ question ❓ grey_exclamation ❕ grey_question ❔ clock12 🕛 clock1 🕐
clock2 🕑 clock3 🕒 clock4 🕓 clock5 🕔 clock6 🕕 clock7 🕖 clock8 🕗 clock9 🕘 clock10 🕙 clock11 🕚
heavy_multiplication_x ✖ heavy_plus_sign ➕ heavy_minus_sign ➖ heavy_division_sign ➗ spades ♠
hearts ♥ clubs ♣ diamonds ♦ white_flower 💮 heavy_check_mark ✔ check_mark ✔ cross_mark ❌
ballot_box_with_check ☑ radio_button 🔘 link 🔗 curly_loop ➰ wavy_dash 〰 part_alternation_mark 〽
trident 🔱 black_square_button 🔲 white_square_button 🔳 white_circle ⚪ black_circle ⚫
red_circle 🔴 large_blue_circle 🔵 large_blue_diamond 🔷 large_orange_diamond 🔶
small_blue_diamond 🔹 small_orange_diamond 🔸 small_red_triangle 🔺 small_red_triangle_down 🔻
black_large_square ⬛ white_large_square ⬜ warning ⚠"

/-- The words of a text, which white space divides. -/
def wordsOf (text : Text) : List Text :=
  let (word, words) := text.foldr
    (fun c (word, words) =>
      if isBlank c then ([], if word.isEmpty then words else word :: words)
      else (c :: word, words))
    (([] : Text), ([] : List Text))
  if word.isEmpty then words else word :: words

/-- Words taken two by two. -/
def pairUp : List Text → List (Text × Text)
  | first :: second :: others => (first, second) :: pairUp others
  | _ => []

/-- The pictures with the names that stand for them. -/
def all : List (Text × Text) :=
  pairUp (wordsOf table.toList)

/-- The ends of a code that ask for a picture in colours or in plain print, with the mark that is set
behind the picture for it. -/
def presentations : List (Text × Text) :=
  [("-emoji".toList, ['\uFE0F']), ("-text".toList, ['\uFE0E'])]

/-- The name in a code and the mark that the code asks for. -/
def splitCode (code : Text) : Text × Text :=
  match presentations.find? fun (ending, _) => ending.isSuffixOf code with
  | some (ending, mark) => (code.take (code.length - ending.length), mark)
  | none => (code, [])

/-- What is shown for a code between colons. -/
def showCode (code : Text) : Text :=
  let (name, mark) := splitCode code
  match all.lookup (lower name) with
  | some picture => picture ++ mark
  | none => ':' :: code ++ [':']

/-- Show the picture for every code of a text. A code has no white space in it, and its second colon
begins no other one. -/
def showAll (text : Text) : Text :=
  (chop (fun c rest =>
    if c = ':' then
      let code := rest.takeWhile fun d => d ≠ ':' && !isBlank d
      if (rest.drop code.length).head? = some ':' then (showCode code, code.length + 1)
      else ([c], 0)
    else ([c], 0)) 0 text).flatten

end Picture

end MathScribe
